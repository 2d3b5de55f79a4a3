import IncrementalLR.Proofs.Grammar.RuleLanguage

/-!
# What rule expressions expand to

Before alternatives are repeated, the empty ones among them are taken out. Any number of repetitions
has the empty string beside the repeated symbol, so nothing is lost there. One or more repetitions
have it only when nothing is left to repeat: they lose the empty string as soon as their body stands
for another one. Every other rule expression expands to what it stands for.

The proof follows the alternatives through expansion. All their symbols stand for something, and
never for the empty string, so the empty alternatives are exactly those that stand for it.
-/

namespace IncrementalLR

open scoped Computability

/-! ### Languages of expansions -/

/-- One or more strings of the language, without the empty string. -/
def repeatedOnce (l : FormalLanguage Symbol) : FormalLanguage Symbol :=
  {w | w ∈ l * l∗ ∧ w ≠ []}

/-- What a repetition of one or more expands to: the empty string is there only by itself. -/
def oneOrMoreOf (l : FormalLanguage Symbol) : FormalLanguage Symbol :=
  {w | w ∈ repeatedOnce l ∨ w = [] ∧ ∀ v ∈ l, v = []}

section Languages

variable {l : FormalLanguage Symbol}

theorem repeatedOnce_add_one (l : FormalLanguage Symbol) : repeatedOnce l + 1 = l∗ := by
  ext w
  rw [← Language.one_add_self_mul_kstar_eq_kstar, Language.mem_add, Language.mem_add,
    Language.mem_one]
  constructor
  · rintro (⟨hw, _⟩ | hnil)
    · exact .inr hw
    · exact .inl hnil
  · rintro (hnil | hw)
    · exact .inr hnil
    · by_cases hnil : w = []
      · exact .inr hnil
      · exact .inl ⟨hw, hnil⟩

theorem oneOrMoreOf_of_exists (h : ∃ w ∈ l, w ≠ []) : oneOrMoreOf l = repeatedOnce l := by
  obtain ⟨v, hv, hne⟩ := h
  ext w
  exact ⟨fun hw => hw.resolve_right fun hnil => hne (hnil.2 v hv), .inl⟩

theorem kstar_of_forall (h : ∀ w ∈ l, w = []) : l∗ = 1 := by
  refine le_antisymm ?_ one_le_kstar
  calc l∗ ≤ 1∗ := kstar_mono (Grammar.le_of_forall_mem fun w hw => (Language.mem_one w).2 (h w hw))
    _ = 1 := kstar_one

theorem oneOrMoreOf_of_forall (h : ∀ w ∈ l, w = []) : oneOrMoreOf l = 1 := by
  ext w
  rw [Language.mem_one]
  constructor
  · rintro (⟨hw, _⟩ | ⟨hnil, _⟩)
    · rw [kstar_of_forall h, mul_one] at hw
      exact h w hw
    · exact hnil
  · intro hnil
    exact .inr ⟨hnil, h⟩

theorem mem_oneOrMoreOf_iff {w : List Symbol} (hw : w ≠ []) : w ∈ oneOrMoreOf l ↔ w ∈ l * l∗ := by
  constructor
  · rintro (⟨hmem, _⟩ | ⟨hnil, _⟩)
    · exact hmem
    · exact absurd hnil hw
  · intro hmem
    exact .inl ⟨hmem, hw⟩

theorem nil_mem_oneOrMoreOf_iff : [] ∈ oneOrMoreOf l ↔ ∀ w ∈ l * l∗, w = [] := by
  constructor
  · rintro (⟨_, hne⟩ | ⟨_, hall⟩)
    · exact absurd rfl hne
    · rw [kstar_of_forall hall, mul_one]
      exact hall
  · intro hall
    refine .inr ⟨rfl, fun v hv => hall v ?_⟩
    rw [← List.append_nil v]
    exact Language.append_mem_mul hv (Language.nil_mem_kstar l)

end Languages

mutual

/-- The strings that the alternatives of a rule expression come to. -/
def Rule.expandedLanguage (g : Grammar) : Rule → FormalLanguage Symbol
  | .blank => 1
  | .literal text => {[g.literalSymbol text]}
  | .pattern source => {[g.patternSymbol source]}
  | .token body => {w | ∃ owner, w ∈ body.tokenLanguage g owner}
  | .symbol name => {[g.nameSymbol name]}
  | .seq items => expandedLanguageSeq g items
  | .choice items => expandedLanguageChoice g items
  | .zeroOrMore body => (expandedLanguage g body)∗
  | .oneOrMore body => oneOrMoreOf (expandedLanguage g body)
  | .optional body => expandedLanguage g body + 1
  | .ranked _ _ body => expandedLanguage g body
  | .weighted _ body => expandedLanguage g body
  | .field _ body => expandedLanguage g body

def Rule.expandedLanguageSeq (g : Grammar) : List Rule → FormalLanguage Symbol
  | [] => 1
  | item :: items => expandedLanguage g item * expandedLanguageSeq g items

def Rule.expandedLanguageChoice (g : Grammar) : List Rule → FormalLanguage Symbol
  | [] => 0
  | item :: items => expandedLanguage g item + expandedLanguageChoice g items

end

mutual

/-- The owner of a token only stands in error messages. -/
theorem tokenSource_owner {owner source : String} (owner' : String) :
    (body : Rule) → tokenSource owner body = .ok source → tokenSource owner' body = .ok source
  | .blank, h => h
  | .literal _, h => h
  | .pattern _, h => h
  | .symbol _, h => by cases h
  | .seq items, h => by
      rw [tokenSource] at h ⊢
      obtain ⟨sources, hsources, h⟩ := exists_of_bind_eq_ok h
      rw [tokenSources_owner owner' items hsources]
      exact h
  | .choice items, h => by
      rw [tokenSource] at h ⊢
      obtain ⟨sources, hsources, h⟩ := exists_of_bind_eq_ok h
      rw [tokenSources_owner owner' items hsources]
      exact h
  | .zeroOrMore body, h => by
      rw [tokenSource] at h ⊢
      obtain ⟨_, hbody, h⟩ := exists_of_bind_eq_ok h
      rw [tokenSource_owner owner' body hbody]
      exact h
  | .oneOrMore body, h => by
      rw [tokenSource] at h ⊢
      obtain ⟨_, hbody, h⟩ := exists_of_bind_eq_ok h
      rw [tokenSource_owner owner' body hbody]
      exact h
  | .optional body, h => by
      rw [tokenSource] at h ⊢
      obtain ⟨_, hbody, h⟩ := exists_of_bind_eq_ok h
      rw [tokenSource_owner owner' body hbody]
      exact h
  | .ranked _ _ body, h => tokenSource_owner owner' body h
  | .weighted _ body, h => tokenSource_owner owner' body h
  | .field _ body, h => tokenSource_owner owner' body h
  | .token body, h => tokenSource_owner owner' body h

theorem tokenSources_owner {owner : String} {sources : List String} (owner' : String) :
    (items : List Rule) → tokenSources owner items = .ok sources →
      tokenSources owner' items = .ok sources
  | [], h => h
  | item :: items, h => by
      rw [tokenSources] at h ⊢
      obtain ⟨source, hitem, h⟩ := exists_of_bind_eq_ok h
      obtain ⟨rest, hitems, h⟩ := exists_of_bind_eq_ok h
      rw [tokenSource_owner owner' item hitem, tokenSources_owner owner' items hitems]
      exact h

end

theorem Rule.tokenLanguage_owner (g : Grammar) (owner owner' : String) (body : Rule) :
    body.tokenLanguage g owner = body.tokenLanguage g owner' := by
  cases body with
  | literal text => rfl
  | _ =>
      ext w
      exact exists_congr fun source => and_congr_left'
        ⟨tokenSource_owner owner' _, tokenSource_owner owner _⟩

theorem Rule.tokenLanguage_of_ne {g : Grammar} {owner : String} {body : Rule}
    (hbody : ∀ text, body ≠ .literal text) :
    body.tokenLanguage g owner
      = {w | ∃ source, tokenSource owner body = .ok source ∧ w = [g.patternSymbol source]} := by
  cases body with
  | literal text => exact absurd rfl (hbody text)
  | _ => rfl

theorem Rule.expandedLanguage_token (g : Grammar) (owner : String) (body : Rule) :
    (Rule.token body).expandedLanguage g = body.tokenLanguage g owner := by
  ext w
  constructor
  · rintro ⟨other, hw⟩
    rwa [tokenLanguage_owner g owner other]
  · intro hw
    exact ⟨owner, hw⟩

mutual

/-- Without repetitions of one or more, a rule expression expands to what it stands for. -/
theorem Rule.expandedLanguage_eq {g : Grammar} (owner : String) :
    (rule : Rule) → rule.hasOneOrMore = false → rule.expandedLanguage g = rule.language g owner
  | .blank, _ => rfl
  | .literal _, _ => rfl
  | .pattern _, _ => rfl
  | .symbol _, _ => rfl
  | .token body, _ => expandedLanguage_token g owner body
  | .seq items, hfree => expandedLanguageSeq_eq owner items hfree
  | .choice items, hfree => expandedLanguageChoice_eq owner items hfree
  | .oneOrMore _, hfree => by cases hfree
  | .zeroOrMore body, hfree => congrArg (·∗) (expandedLanguage_eq owner body hfree)
  | .optional body, hfree => congrArg (· + 1) (expandedLanguage_eq owner body hfree)
  | .ranked _ _ body, hfree => expandedLanguage_eq owner body hfree
  | .weighted _ body, hfree => expandedLanguage_eq owner body hfree
  | .field _ body, hfree => expandedLanguage_eq owner body hfree

theorem Rule.expandedLanguageSeq_eq {g : Grammar} (owner : String) :
    (items : List Rule) → Rule.anyHasOneOrMore items = false →
      Rule.expandedLanguageSeq g items = Rule.languageSeq g owner items
  | [], _ => rfl
  | item :: items, hfree => by
      obtain ⟨hitem, hitems⟩ := Bool.or_eq_false_iff.1 hfree
      rw [expandedLanguageSeq, languageSeq, expandedLanguage_eq owner item hitem,
        expandedLanguageSeq_eq owner items hitems]

theorem Rule.expandedLanguageChoice_eq {g : Grammar} (owner : String) :
    (items : List Rule) → Rule.anyHasOneOrMore items = false →
      Rule.expandedLanguageChoice g items = Rule.languageChoice g owner items
  | [], _ => rfl
  | item :: items, hfree => by
      obtain ⟨hitem, hitems⟩ := Bool.or_eq_false_iff.1 hfree
      rw [expandedLanguageChoice, languageChoice, expandedLanguage_eq owner item hitem,
        expandedLanguageChoice_eq owner items hitems]

end

theorem Alternative.map_symbols_filter (alts : List Alternative) :
    (alts.filter fun alt => !alt.steps.isEmpty).map symbols
      = (alts.map symbols).filter fun u => !u.isEmpty := by
  rw [List.filter_map]
  refine congrArg (List.map _) (List.filter_congr fun a _ => ?_)
  rw [Function.comp_apply, symbols, List.isEmpty_map]

/-! ### Symbols that stand for something -/

/-- The symbol stands for some string, and not for the empty one. -/
def Grammar.Fills (g : Grammar) (s : Symbol) : Prop :=
  (∃ w, w ∈ g.unfolding [s]) ∧ [] ∉ g.unfolding [s]

section Fills

variable {g : Grammar} {u : List Symbol}

theorem fills_of_not_isAuxiliary {s : Symbol} (hs : ¬ g.IsAuxiliary s) : g.Fills s := by
  rw [Grammar.Fills, Grammar.unfolding_singleton hs]
  exact ⟨⟨[s], rfl⟩, fun h => List.cons_ne_nil s [] h.symm⟩

theorem exists_mem_unfolding (h : ∀ s ∈ u, g.Fills s) : ∃ w, w ∈ g.unfolding u := by
  induction u with
  | nil => exact ⟨[], by rw [Grammar.unfolding_nil]; exact Language.nil_mem_one⟩
  | cons s rest ih =>
      obtain ⟨w, hw⟩ := (h s List.mem_cons_self).1
      obtain ⟨w', hw'⟩ := ih fun t ht => h t (List.mem_cons_of_mem s ht)
      refine ⟨w ++ w', ?_⟩
      rw [← List.singleton_append, Grammar.unfolding_append]
      exact Language.append_mem_mul hw hw'

theorem ne_nil_of_mem_unfolding (h : ∀ s ∈ u, g.Fills s) (hu : u ≠ []) {w : List Symbol}
    (hw : w ∈ g.unfolding u) : w ≠ [] := by
  cases u with
  | nil => exact absurd rfl hu
  | cons s rest =>
      rw [← List.singleton_append, Grammar.unfolding_append] at hw
      obtain ⟨y, hy, z, _, rfl⟩ := Language.mem_mul.1 hw
      intro hnil
      rw [(List.append_eq_nil_iff.1 hnil).1] at hy
      exact (h s List.mem_cons_self).2 hy

end Fills

/-- The alternatives come to the language, and all their symbols stand for something. -/
structure Grammar.AmountsTo (g : Grammar) (alts : List Alternative) (l : FormalLanguage Symbol) :
    Prop where
  eq : g.alternatives alts = l
  fills : ∀ a ∈ alts, ∀ s ∈ a.symbols, g.Fills s

namespace Grammar.AmountsTo

variable {g : Grammar} {as bs : List Alternative} {l m : FormalLanguage Symbol}

theorem nil : g.AmountsTo [] 0 :=
  ⟨Grammar.unfoldings_nil, fun _ ha => absurd ha List.not_mem_nil⟩

theorem empty : g.AmountsTo [{}] 1 := by
  refine ⟨Alternative.alternatives_empty, fun a ha s hs => ?_⟩
  rw [List.mem_singleton.1 ha] at hs
  exact absurd hs List.not_mem_nil

theorem of_fills {s : Symbol} (hs : g.Fills s) : g.AmountsTo [.single s] (g.unfolding [s]) := by
  refine ⟨Grammar.unfoldings_singleton [s], fun a ha t ht => ?_⟩
  rw [List.mem_singleton.1 ha] at ht
  rwa [List.mem_singleton.1 ht]

theorem single {s : Symbol} (hs : ¬ g.IsAuxiliary s) : g.AmountsTo [.single s] {[s]} := by
  rw [← Grammar.unfolding_singleton hs]
  exact of_fills (fills_of_not_isAuxiliary hs)

theorem append (ha : g.AmountsTo as l) (hb : g.AmountsTo bs m) : g.AmountsTo (as ++ bs) (l + m) := by
  refine ⟨?_, fun a h => ?_⟩
  · rw [Alternative.alternatives_append, ha.eq, hb.eq]
  · exact (List.mem_append.1 h).elim (ha.fills a) (hb.fills a)

theorem product (ha : g.AmountsTo as l) (hb : g.AmountsTo bs m) :
    g.AmountsTo (Alternative.product as bs) (l * m) := by
  refine ⟨?_, fun c hc s hs => ?_⟩
  · rw [Alternative.alternatives_product, ha.eq, hb.eq]
  · obtain ⟨a, hamem, hc⟩ := List.mem_flatMap.1 hc
    obtain ⟨b, hbmem, rfl⟩ := List.mem_map.1 hc
    rw [Alternative.symbols_append] at hs
    exact (List.mem_append.1 hs).elim (ha.fills a hamem s) (hb.fills b hbmem s)

theorem map (h : g.AmountsTo as l) {f : Alternative → Alternative}
    (hf : ∀ a, (f a).symbols = a.symbols) : g.AmountsTo (as.map f) l := by
  refine ⟨(Alternative.alternatives_map hf as).trans h.eq, fun b hb => ?_⟩
  obtain ⟨a, ha, rfl⟩ := List.mem_map.1 hb
  rw [hf]
  exact h.fills a ha

/-! ### Repetitions -/

/-- Without the empty alternatives the others come to the strings that are not empty. -/
theorem mem_alternatives_filter (h : g.AmountsTo as l) {w : List Symbol} :
    w ∈ g.alternatives (as.filter fun alt => !alt.steps.isEmpty) ↔ w ∈ l ∧ w ≠ [] := by
  rw [← h.eq, Grammar.alternatives, Grammar.alternatives, Alternative.map_symbols_filter]
  constructor
  · rintro ⟨u, hu, hw⟩
    obtain ⟨hmem, hne⟩ := List.mem_filter.1 hu
    obtain ⟨a, ha, rfl⟩ := List.mem_map.1 hmem
    refine ⟨⟨a.symbols, hmem, hw⟩, ne_nil_of_mem_unfolding (h.fills a ha) ?_ hw⟩
    rintro heq
    rw [heq] at hne
    cases hne
  · rintro ⟨⟨u, hu, hw⟩, hne⟩
    refine ⟨u, List.mem_filter.2 ⟨hu, ?_⟩, hw⟩
    cases u with
    | nil =>
        rw [Grammar.unfolding_nil] at hw
        exact absurd ((Language.mem_one w).1 hw) hne
    | cons s rest => rfl

theorem filter_eq_nil_iff (h : g.AmountsTo as l) :
    as.filter (fun alt => !alt.steps.isEmpty) = [] ↔ ∀ w ∈ l, w = [] := by
  constructor
  · intro hnil w hw
    by_cases hne : w = []
    · exact hne
    · have hmem := h.mem_alternatives_filter.2 ⟨hw, hne⟩
      rw [hnil, AmountsTo.nil.eq] at hmem
      exact absurd hmem (Language.notMem_zero w)
  · intro hall
    refine List.eq_nil_iff_forall_not_mem.2 fun a ha => ?_
    obtain ⟨w, hw⟩ := exists_mem_unfolding (h.fills a (List.mem_filter.1 ha).1)
    obtain ⟨hl, hne⟩ := h.mem_alternatives_filter.1 ⟨a.symbols, List.mem_map_of_mem ha, hw⟩
    exact hne (hall w hl)

/-- The symbol of a repetition stands for one or more of the strings that are not empty. -/
theorem unfolding_addRepetition (h : g.AmountsTo as l) {scope : ExpansionScope} {e e' : Expansion}
    {s : Symbol} (hadd : addRepetition scope as e = .ok (some s, e')) (hrecords : g.Records e') :
    g.unfolding [s] = repeatedOnce l := by
  cases addRepetition_spec hadd
  obtain ⟨haux, hproduces⟩ := hrecords _ List.mem_cons_self
  have hunfolding : g.unfolding [s] = g.alternatives (as.filter fun alt => !alt.steps.isEmpty)
      * (g.alternatives (as.filter fun alt => !alt.steps.isEmpty))∗ := by
    refine Grammar.Repeats.unfolding_eq ⟨haux, fun rhs => ?_⟩
    rw [hproduces, List.map_append, List.map_map, List.map_map]
    rfl
  have hstar : (g.alternatives (as.filter fun alt => !alt.steps.isEmpty))∗ = l∗ := by
    rw [← h.eq, Grammar.alternatives, Alternative.map_symbols_filter,
      Grammar.kstar_unfoldings_filter, Grammar.alternatives]
  ext w
  constructor
  · intro hw
    rw [hunfolding, hstar] at hw
    obtain ⟨y, hy, z, hz, rfl⟩ := Language.mem_mul.1 hw
    obtain ⟨hyl, hne⟩ := h.mem_alternatives_filter.1 hy
    exact ⟨Language.append_mem_mul hyl hz, fun hnil => hne (List.append_eq_nil_iff.1 hnil).1⟩
  · rintro ⟨hw, hne⟩
    have hmem : w ∈ l∗ := (mul_kstar_le_kstar : l * l∗ ≤ l∗) hw
    rw [← hstar, ← Language.one_add_self_mul_kstar_eq_kstar, Language.mem_add] at hmem
    rw [hunfolding]
    exact hmem.resolve_left fun hone => hne ((Language.mem_one w).1 hone)

/-- A symbol is made for a repetition when there is more than the empty string to repeat. -/
theorem exists_ne_nil_of_addRepetition (h : g.AmountsTo as l) {scope : ExpansionScope}
    {e e' : Expansion} {s : Symbol} (hadd : addRepetition scope as e = .ok (some s, e')) :
    ∃ w ∈ l, w ≠ [] := by
  cases addRepetition_spec hadd with
  | symbol _ _ _ _ hne =>
    rw [ne_eq, h.filter_eq_nil_iff] at hne
    simpa using hne

theorem eq_nil_of_addRepetition (h : g.AmountsTo as l) {scope : ExpansionScope} {e e' : Expansion}
    (hadd : addRepetition scope as e = .ok (none, e')) : ∀ w ∈ l, w = [] := by
  cases addRepetition_spec hadd with
  | nothing hempty => exact h.filter_eq_nil_iff.1 hempty

theorem addRepetition (h : g.AmountsTo as l) {scope : ExpansionScope} {e e' : Expansion}
    {s : Symbol} (hadd : addRepetition scope as e = .ok (some s, e')) (hrecords : g.Records e') :
    g.AmountsTo [.single s] (repeatedOnce l) := by
  have hunfolding := h.unfolding_addRepetition hadd hrecords
  obtain ⟨w, hw, hne⟩ := h.exists_ne_nil_of_addRepetition hadd
  rw [← hunfolding]
  apply of_fills
  rw [Grammar.Fills, hunfolding]
  refine ⟨⟨w, ?_, hne⟩, fun hnil => hnil.2 rfl⟩
  rw [← List.append_nil w]
  exact Language.append_mem_mul hw (Language.nil_mem_kstar l)

end Grammar.AmountsTo

/-! ### Expansion -/

section Expand

variable {g : Grammar} {scope : ExpansionScope}

theorem amountsTo_literal (h : scope.Resolves g) (text : String) :
    g.AmountsTo [.single (scope.literalSymbol text)] {[g.literalSymbol text]} := by
  rw [(h.literals text).1]
  exact .single (h.literals text).2

theorem amountsTo_pattern (h : scope.Resolves g) (source : String) :
    g.AmountsTo [.single (scope.patternSymbol source)] {[g.patternSymbol source]} := by
  rw [(h.patterns source).1]
  exact .single (h.patterns source).2

/-- A token that is no literal becomes one pattern. -/
theorem amountsTo_token (h : scope.Resolves g) {body : Rule} {source : String}
    (hbody : ∀ text, body ≠ .literal text) (hsource : tokenSource scope.rule body = .ok source) :
    g.AmountsTo [.single (scope.patternSymbol source)] ((Rule.token body).expandedLanguage g) := by
  have heq : body.tokenLanguage g scope.rule = {[g.patternSymbol source]} := by
    rw [Rule.tokenLanguage_of_ne hbody]
    ext w
    constructor
    · rintro ⟨other, hother, rfl⟩
      rw [hsource] at hother
      cases hother
      rfl
    · rintro rfl
      exact ⟨source, hsource, rfl⟩
  rw [Rule.expandedLanguage_token g scope.rule, heq]
  exact amountsTo_pattern h source

mutual

/-- The alternatives of a rule expression come to what it expands to. -/
theorem Expands.amountsTo (hscope : scope.Resolves g) {e e' : Expansion} {alts : List Alternative}
    {rule : Rule} :
    Expands scope rule e alts e' → g.Records e' → g.AmountsTo alts (rule.expandedLanguage g)
  | .blank, _ => .empty
  | .literal text, _ => amountsTo_literal hscope text
  | .pattern source, _ => amountsTo_pattern hscope source
  | .tokenLiteral text, _ => by
      rw [Rule.expandedLanguage_token g scope.rule]
      exact amountsTo_literal hscope text
  | .token hbody hsource, _ => amountsTo_token hscope hbody hsource
  | .symbol hname, _ => by
      obtain ⟨hsymbol, haux⟩ := hscope.names _ _ hname
      rw [Rule.expandedLanguage, hsymbol]
      exact .single haux
  | .seq hitems, hrecords => by
      have h := hitems.amountsTo hscope hrecords .empty
      rwa [one_mul] at h
  | .choice hitems, hrecords => hitems.amountsTo hscope hrecords
  | .optional hbody, hrecords => (hbody.amountsTo hscope hrecords).append .empty
  | .oneOrMore hbody hadd, hrecords => by
      have h := hbody.amountsTo hscope (hrecords.mono (adds_addRepetition 0 hadd).auxiliaries)
      rw [Rule.expandedLanguage, oneOrMoreOf_of_exists (h.exists_ne_nil_of_addRepetition hadd)]
      exact h.addRepetition hadd hrecords
  | .oneOrMoreNothing hbody hadd, hrecords => by
      have h := hbody.amountsTo hscope (hrecords.mono (adds_addRepetition 0 hadd).auxiliaries)
      rw [Rule.expandedLanguage, oneOrMoreOf_of_forall (h.eq_nil_of_addRepetition hadd)]
      exact .empty
  | .zeroOrMore hbody hadd, hrecords => by
      have h := hbody.amountsTo hscope (hrecords.mono (adds_addRepetition 0 hadd).auxiliaries)
      rw [Rule.expandedLanguage, ← repeatedOnce_add_one]
      exact (h.addRepetition hadd hrecords).append .empty
  | .zeroOrMoreNothing hbody hadd, hrecords => by
      have h := hbody.amountsTo hscope (hrecords.mono (adds_addRepetition 0 hadd).auxiliaries)
      rw [Rule.expandedLanguage, kstar_of_forall (h.eq_nil_of_addRepetition hadd)]
      exact .empty
  | .ranked value assoc hbody, hrecords =>
      (hbody.amountsTo hscope hrecords).map (Alternative.symbols_rank ⟨value, assoc⟩)
  | .weighted _ hbody, hrecords => (hbody.amountsTo hscope hrecords).map fun _ => rfl
  | .field name hbody, hrecords =>
      (hbody.amountsTo hscope hrecords).map (Alternative.symbols_label (scope.fieldId name))

theorem ExpandsSeq.amountsTo (hscope : scope.Resolves g) {e e' : Expansion}
    {before alts : List Alternative} {items : List Rule} {l : FormalLanguage Symbol} :
    ExpandsSeq scope before items e alts e' → g.Records e' → g.AmountsTo before l →
      g.AmountsTo alts (l * Rule.expandedLanguageSeq g items)
  | .nil, _, hbefore => by rwa [Rule.expandedLanguageSeq, mul_one]
  | .cons hitem hitems, hrecords, hbefore => by
      have h := hitem.amountsTo hscope
        (hrecords.mono (hitems.relates (carries_adds scope 0)).auxiliaries)
      rw [Rule.expandedLanguageSeq, ← mul_assoc]
      exact hitems.amountsTo hscope hrecords (hbefore.product h)

theorem ExpandsChoice.amountsTo (hscope : scope.Resolves g) {e e' : Expansion}
    {alts : List Alternative} {items : List Rule} :
    ExpandsChoice scope items e alts e' → g.Records e' →
      g.AmountsTo alts (Rule.expandedLanguageChoice g items)
  | .nil, _ => .nil
  | .cons hitem hitems, hrecords => by
      have h := hitem.amountsTo hscope
        (hrecords.mono (hitems.relates (carries_adds scope 0)).auxiliaries)
      exact h.append (hitems.amountsTo hscope hrecords)

end

/-- The alternatives of a rule expression, unfolded, are the strings that it stands for. -/
theorem alternatives_expand (hscope : scope.Resolves g) {e e' : Expansion}
    {alts : List Alternative} (rule : Rule) (hfree : rule.hasOneOrMore = false)
    (hexpand : expand scope rule e = .ok (alts, e')) (hrecords : g.Records e') :
    g.alternatives alts = rule.language g scope.rule :=
  ((expands_of_expand rule hexpand).amountsTo hscope hrecords).eq.trans
    (Rule.expandedLanguage_eq scope.rule rule hfree)

end Expand

end IncrementalLR
