import IncrementalLR.Proofs.Grammar.Expansion
import IncrementalLR.Proofs.Grammar.Loading

/-!
# Loaded grammars are well formed

A loaded grammar numbers its symbols without gaps, the start production alone has the augmented start
symbol, and right-hand sides hold neither that symbol nor the end of input. Everything the lexer can
find is a terminal other than the end of input.
-/

namespace IncrementalLR

namespace Grammar

/-- The symbol of the start production, the first after the terminals. -/
def augmented (g : Grammar) : Symbol := Symbol.ofIndex g.terminalCount

structure WellFormed (g : Grammar) : Prop where
  terminals : 0 < g.terminalCount
  augmented_lt : g.terminalCount < g.symbols.size
  size : g.symbols.size ≤ 65535
  start : ∃ p, g.productions[0]? = some p ∧ p.lhs = g.augmented ∧ p.rhs = [g.start]
  /-- the start symbol is a token or a rule -/
  start_kind : g.isTerminal g.start = true ∨
    ∃ info, g.symbols[g.start.index]? = some info ∧ info.kind = .nonterminal
  /-- left-hand sides are nonterminals -/
  lhs : ∀ p ∈ g.productions, g.terminalCount ≤ p.lhs.index ∧ p.lhs.index < g.symbols.size
  /-- only the start production has the augmented start symbol -/
  lhs_augmented : ∀ (i : Nat) (p : Production), g.productions[i]? = some p → p.lhs = g.augmented →
    i = 0
  rhs : ∀ p ∈ g.productions, ∀ s ∈ p.rhs, s.Usable g.augmented g.symbols.size
  tokens : ∀ token ∈ g.tokens, token.symbol.IsToken g.terminalCount
  keywords : ∀ entry ∈ g.keywords, entry.2.IsToken g.terminalCount
  externals : ∀ s ∈ g.externals, s.IsToken g.terminalCount
  /-- conflicts are declared between rules, and the start production belongs to none -/
  conflicts : ∀ set ∈ g.conflicts, g.origin g.augmented ∉ set

theorem WellFormed.isTerminal_lhs {g : Grammar} (hg : g.WellFormed) {i : Nat} {p : Production}
    (hp : g.productions[i]? = some p) : g.isTerminal p.lhs = false := by
  have hle := (hg.lhs p (Array.mem_of_getElem? hp)).1
  exact decide_eq_false (Nat.not_lt_of_le hle)

end Grammar

theorem Extras.add_eq_ok {ruleNames : List String} {names : Std.HashMap String Symbol}
    {e e' : Extras} {rule : Rule} (h : Extras.add ruleNames names e rule = .ok e') :
    e'.symbols.size = e.symbols.size := by
  cases Extras.add_spec h with
  | token => exact Array.size_modify
  | skip => rfl

theorem mapsTo_namesOf {P : Symbol → Prop} {m : Std.HashMap String Symbol}
    {rules : List (String × Rule × Symbol)} (hm : MapsTo m P) (hrules : ∀ rule ∈ rules, P rule.2.2) :
    MapsTo (namesOf m rules) P := by
  induction rules generalizing m with
  | nil => exact hm
  | cons rule rules ih =>
      exact ih (hm.insert (hrules rule List.mem_cons_self))
        fun other hother => hrules other (List.mem_cons_of_mem rule hother)

theorem mem_namesOf {m : Std.HashMap String Symbol} {rules : List (String × Rule × Symbol)}
    {key : String} (h : key ∈ m ∨ ∃ rule ∈ rules, rule.1 = key) : key ∈ namesOf m rules := by
  induction rules generalizing m with
  | nil => simpa [namesOf] using h
  | cons rule rules ih =>
      refine ih ?_
      rcases h with hm | ⟨other, hother, rfl⟩
      · exact .inl (Std.HashMap.mem_insert.2 (.inr hm))
      · rcases List.mem_cons.1 hother with rfl | hother
        · exact .inl Std.HashMap.mem_insert_self
        · exact .inr ⟨other, hother, rfl⟩

/-- A production whose symbols are numbered below the size. -/
def Production.InOrder (p : Production) (augmented : Symbol) (size : Nat) : Prop :=
  augmented.index < p.lhs.index ∧ p.lhs.index < size ∧ ∀ s ∈ p.rhs, s.Usable augmented size

theorem Production.InOrder.mono {p : Production} {augmented : Symbol} {size size' : Nat}
    (h : p.InOrder augmented size) (hle : size ≤ size') : p.InOrder augmented size' :=
  ⟨h.1, Nat.lt_of_lt_of_le h.2.1 hle, fun s hs => (h.2.2 s hs).mono hle⟩

/-- Of productions that are in order behind a first one, none has the augmented start symbol. -/
theorem Production.eq_zero_of_lhs_eq {first p : Production} {productions : List Production}
    {augmented : Symbol} {size i : Nat} (h : ∀ p ∈ productions, p.InOrder augmented size)
    (hp : (first :: productions)[i]? = some p) (hlhs : p.lhs = augmented) : i = 0 := by
  cases i with
  | zero => rfl
  | succ i =>
      rw [List.getElem?_cons_succ] at hp
      have hlow := (h p (List.mem_of_getElem? hp)).1
      rw [hlhs] at hlow
      exact absurd hlow (Nat.lt_irrefl _)

theorem inOrder_of_mem_alternatives {augmented lhs : Symbol} {size : Nat} {alts : List Alternative}
    (hlow : augmented.index < lhs.index) (hhigh : lhs.index < size)
    (halts : Alternative.AllUsable augmented size alts) {p : Production}
    (hp : p ∈ (Alternative.distinct alts).map (·.toProduction lhs)) : p.InOrder augmented size := by
  obtain ⟨a, ha, rfl⟩ := List.mem_map.1 hp
  refine ⟨hlow, hhigh, fun s hs => ?_⟩
  rw [Alternative.rhs_toProduction] at hs
  exact halts.distinct a ha s hs

theorem expandRules_eq_ok {scopeOf : String → Symbol → ExpansionScope}
    {symbols : Array SymbolInfo} {rules : List (String × Rule × Symbol)} {expansion : Expansion}
    {productions : List Production} {augmented : Symbol} (hsize : symbols.size ≤ 65535)
    (haug : augmented.index < symbols.size)
    (hscope : ∀ rule ∈ rules, (scopeOf rule.1 rule.2.2).WellFormed augmented symbols.size ∧
      rule.2.1.TokensIn (scopeOf rule.1 rule.2.2).rule (scopeOf rule.1 rule.2.2).literals
        (scopeOf rule.1 rule.2.2).patterns)
    (hrules : ∀ rule ∈ rules, augmented.index < rule.2.2.index ∧ rule.2.2.index < symbols.size)
    (h : expandRules scopeOf symbols rules = .ok (expansion, productions)) :
    expansion.WellFormed augmented ∧ symbols.toList <+: expansion.symbols.toList ∧
      ∀ p ∈ productions, p.InOrder augmented expansion.symbols.size := by
  obtain ⟨ps, ⟨hwf, hgrows, hps⟩, rfl⟩ := expandRules_induction
    (fun _ e ps => e.WellFormed augmented ∧ symbols.toList <+: e.symbols.toList ∧
      ∀ p ∈ ps, p.InOrder augmented e.symbols.size)
    h ⟨⟨hsize, haug, by simp, by simp, by simp, by simp, .nil⟩, List.prefix_refl _, by simp⟩ (by
    rintro done name body s rest e e' alts ps rfl hexpand - ⟨hwf, hgrows, hps⟩
    have hmem : (name, body, s) ∈ done ++ (name, body, s) :: rest :=
      List.mem_append_right _ List.mem_cons_self
    obtain ⟨hscope, htokens⟩ := hscope _ hmem
    obtain ⟨hlow, hhigh⟩ := hrules _ hmem
    have hle : symbols.size ≤ e.symbols.size := hgrows.length_le
    have hwf₀ : { e with repeatCount := 0 }.WellFormed augmented :=
      ⟨hwf.size, hwf.augmented_lt, hwf.auxiliary, hwf.alternatives, hwf.origins, hwf.repeats,
        hwf.distinct⟩
    obtain ⟨hwf', hgrows', husable⟩ := Expands.step (e := { e with repeatCount := 0 })
      (hscope.mono hle) hwf₀ hexpand htokens
    refine ⟨hwf', hgrows.trans hgrows', fun p hp => ?_⟩
    rcases List.mem_append.1 hp with hp | hp
    · exact (hps p hp).mono hgrows'.size_le
    · have hbelow : s.index < e'.symbols.size :=
        Nat.lt_of_lt_of_le hhigh (Nat.le_trans hle hgrows'.size_le)
      exact inOrder_of_mem_alternatives hlow hbelow husable hp)
  refine ⟨hwf, hgrows, fun p hp => ?_⟩
  rcases List.mem_append.1 hp with hp | hp
  · exact hps p hp
  · obtain ⟨⟨s, alts⟩, hentry, hp⟩ := List.mem_flatMap.1 hp
    have hentry := List.mem_reverse.1 hentry
    obtain ⟨hlow, hhigh⟩ := hwf.auxiliary _ hentry
    exact inOrder_of_mem_alternatives hlow hhigh (hwf.alternatives _ hentry) hp

/-- The word is a token, and so is every keyword. -/
theorem findKeywords_eq_ok {t : Terminals} {names : Std.HashMap String Symbol}
    {name : Option String} {word : Option Symbol} {keywords : List (String × Symbol)}
    (ht : t.WellFormed) (h : findKeywords t names name = .ok (word, keywords)) :
    (∀ s ∈ word, s.IsToken t.symbols.size) ∧ ∀ entry ∈ keywords, entry.2.IsToken t.symbols.size := by
  cases name with
  | none =>
      cases h
      simp
  | some name =>
      simp only [findKeywords] at h
      split at h
      · split at h
        · rename_i token htoken
          split at h
          · cases h
          · cases h
            constructor
            · intro s hs
              cases hs
              have hsymbol := Array.find?_some htoken
              rw [← of_decide_eq_true hsymbol]
              exact ht.tokens token (Array.mem_of_find?_eq_some htoken)
            · intro entry hentry
              obtain ⟨⟨s, text⟩, hmem, hsome⟩ := List.mem_filterMap.1 hentry
              simp only [Option.ite_none_right_eq_some, Option.some.injEq] at hsome
              obtain ⟨_, rfl⟩ := hsome
              exact ht.literalTexts _ hmem
        · cases h
      · cases h

theorem conflictSet_eq_ok {terminalCount : Nat} {names : Std.HashMap String Symbol}
    {P : Symbol → Prop} (hnames : MapsTo names P) {set : List String} {found : List Symbol}
    (h : conflictSet terminalCount names set = .ok found) : ∀ s ∈ found, P s := by
  intro s hs
  obtain ⟨name, _, hname⟩ := exists_mem_of_mapM_eq_ok h s hs
  cases hsymbol : names[name]? with
  | none =>
      rw [hsymbol] at hname
      cases hname
  | some found =>
      rw [hsymbol] at hname
      simp only at hname
      split at hname
      · cases hname
        exact hnames name s hsymbol
      · cases hname

theorem GrammarDef.startName_eq_ok {d : GrammarDef} {name : String} (h : d.startName = .ok name) :
    name ∈ d.ruleNames := by
  rw [GrammarDef.startName] at h
  split at h
  · cases h
  · obtain ⟨first, _, h⟩ := exists_of_bind_eq_ok h
    simp only at h
    split at h
    · cases h
    · split at h
      · cases h
      · split at h
        · rename_i hname
          cases h
          exact List.contains_iff_mem.1 hname
        · cases h

/-- Rules that are not lexical, with their symbols numbered behind those that were there. -/
structure RulesNumbered (symbols symbols' : Array SymbolInfo) (rules : List (String × Rule))
    (found : List (String × Rule × Symbol)) : Prop where
  size : symbols'.size ≤ 65535
  grows : symbols.toList <+: symbols'.toList
  of_mem : ∀ rule ∈ found, (rule.1, rule.2.1) ∈ rules ∧ rule.2.1.isLexical = false ∧
    symbols.size ≤ rule.2.2.index ∧
      ∃ info, symbols'[rule.2.2.index]? = some info ∧ info.kind = .nonterminal
  exists_mem : ∀ rule ∈ rules, rule.2.isLexical = false → ∃ s, (rule.1, rule.2, s) ∈ found

namespace RulesNumbered

variable {symbols symbols' : Array SymbolInfo} {rules : List (String × Rule)} {name : String}
  {body : Rule} {found : List (String × Rule × Symbol)}

theorem skip (h : RulesNumbered symbols symbols' rules found) (hlex : body.isLexical = true) :
    RulesNumbered symbols symbols' (rules ++ [(name, body)]) found := by
  refine ⟨h.size, h.grows, fun rule hrule => ?_, fun rule hrule hnot => ?_⟩
  · obtain ⟨hmem, hrest⟩ := h.of_mem rule hrule
    exact ⟨List.mem_append_left _ hmem, hrest⟩
  · rcases List.mem_append.1 hrule with hrule | hrule
    · exact h.exists_mem rule hrule hnot
    · rw [List.mem_singleton.1 hrule] at hnot
      simp only [hlex, Bool.true_eq_false] at hnot

theorem add (h : RulesNumbered symbols symbols' rules found) (hlex : body.isLexical = false)
    (hsize : symbols'.size < 65535) {s : Symbol} (hindex : s.index = symbols'.size)
    {info : SymbolInfo} (hkind : info.kind = .nonterminal) :
    RulesNumbered symbols (symbols'.push info) (rules ++ [(name, body)])
      (found ++ [(name, body, s)]) := by
  have hgrows : symbols'.toList <+: (symbols'.push info).toList := by
    rw [Array.toList_push]
    exact List.prefix_append _ _
  refine ⟨?_, h.grows.trans hgrows, fun rule hrule => ?_, fun rule hrule hnot => ?_⟩
  · rw [Array.size_push]
    exact hsize
  · rcases List.mem_append.1 hrule with hrule | hrule
    · obtain ⟨hmem, hnot, hlow, info, hinfo, hkind⟩ := h.of_mem rule hrule
      exact ⟨List.mem_append_left _ hmem, hnot, hlow, info,
        getElem?_of_toList_isPrefix hgrows hinfo, hkind⟩
    · rw [List.mem_singleton.1 hrule]
      refine ⟨by simp, hlex, hindex ▸ h.grows.length_le, info, ?_, hkind⟩
      rw [hindex, Array.getElem?_push_size]
  · rcases List.mem_append.1 hrule with hrule | hrule
    · obtain ⟨t, ht⟩ := h.exists_mem rule hrule hnot
      exact ⟨t, List.mem_append_left _ ht⟩
    · rw [List.mem_singleton.1 hrule]
      exact ⟨s, by simp⟩

end RulesNumbered

theorem rulesNumbered_of_addNonterminals {symbols symbols' : Array SymbolInfo}
    {rules : List (String × Rule)} {found : List (String × Rule × Symbol)}
    (h : addNonterminals symbols rules = .ok (symbols', found)) (hsize : symbols.size ≤ 65535) :
    RulesNumbered symbols symbols' rules found :=
  addNonterminals_induction (fun done symbols' found => RulesNumbered symbols symbols' done found) h
    ⟨hsize, List.prefix_refl _, by simp, by simp⟩
    (fun _ _ _ _ _ _ _ hlex hdone => hdone.skip hlex)
    fun _ _ _ _ _ _ _ _ hlex hlt hindex hdone => hdone.add hlex hlt hindex rfl

/-- Every rule of a definition can be referred to by its name. -/
theorem mem_namesOf_of_ruleNames {d : GrammarDef} {t : Terminals} {symbols symbols' : Array SymbolInfo}
    {rules : List (String × Rule × Symbol)}
    (hlexical : ∀ rule ∈ d.rules, rule.2.isLexical = true → rule.1 ∈ t.names)
    (hnumbered : RulesNumbered symbols symbols' d.rules rules) {name : String}
    (h : name ∈ d.ruleNames) : name ∈ namesOf t.names rules := by
  obtain ⟨rule, hrule, rfl⟩ := List.mem_map.1 h
  apply mem_namesOf
  cases hlex : rule.2.isLexical with
  | true => exact .inl (hlexical rule hrule hlex)
  | false =>
      obtain ⟨s, hs⟩ := hnumbered.exists_mem rule hrule hlex
      exact .inr ⟨_, hs, rfl⟩

namespace Loading

variable {d : GrammarDef} {g : Grammar} (L : Loading d g) {rule : String × Rule × Symbol}

/-- The names that can stand in a rule. -/
def names : Std.HashMap String Symbol := namesOf L.terminals.names L.rules

theorem terminals_wellFormed : L.terminals.WellFormed :=
  (GrammarDef.terminals_eq_ok L.terminals_eq).1

theorem size_extras : L.extras.symbols.size = L.terminals.symbols.size :=
  foldlM_induction (fun _ (e : Extras) => e.symbols.size = L.terminals.symbols.size) L.extras_eq rfl
    fun _ _ _ _ _ _ he hadd => (Extras.add_eq_ok hadd).trans he

theorem index_augmented : L.augmented.index = L.terminals.symbols.size :=
  L.augmented_index.trans L.size_extras

theorem augmented_eq : g.augmented = L.augmented := by
  rw [Grammar.augmented, L.terminalCount_of, ← L.index_augmented, Symbol.ofIndex_index]

theorem rulesNumbered : RulesNumbered
    (L.extras.symbols.push ⟨augmentedStartName, .auxiliary, false, false, false⟩) L.symbols d.rules
      L.rules :=
  rulesNumbered_of_addNonterminals L.rules_eq (by
    rw [Array.size_push]
    exact L.extras_lt)

theorem augmented_lt : L.augmented.index < L.symbols.size := by
  have hle := L.rulesNumbered.grows.length_le
  rw [Array.length_toList, Array.length_toList, Array.size_push] at hle
  exact L.augmented_index ▸ hle

theorem augmented_lt_of_mem (hrule : rule ∈ L.rules) : L.augmented.index < rule.2.2.index := by
  have hlow := (L.rulesNumbered.of_mem rule hrule).2.2.1
  rw [Array.size_push, ← L.augmented_index] at hlow
  exact hlow

theorem lt_size_of_mem (hrule : rule ∈ L.rules) : rule.2.2.index < L.symbols.size := by
  obtain ⟨_, _, _, info, hinfo, _⟩ := L.rulesNumbered.of_mem rule hrule
  exact (Array.getElem?_eq_some_iff.1 hinfo).1

theorem usable_of_isToken (s : Symbol) (hs : s.IsToken L.terminals.symbols.size) :
    s.Usable L.augmented L.symbols.size :=
  hs.usable (Nat.le_of_eq L.index_augmented.symm) (Nat.le_of_lt (L.index_augmented ▸ L.augmented_lt))

theorem mapsTo_names_usable : MapsTo L.names fun s => s.Usable L.augmented L.symbols.size :=
  mapsTo_namesOf (L.terminals_wellFormed.names.mono L.usable_of_isToken) fun _ hrule =>
    Symbol.usable_of_lt (L.augmented_lt_of_mem hrule) (L.lt_size_of_mem hrule)

/-- A name stands for a terminal or for a rule. -/
theorem mapsTo_names_kind : MapsTo L.names fun s => s.index < L.terminals.symbols.size ∨
    ∃ info, L.symbols[s.index]? = some info ∧ info.kind = .nonterminal :=
  mapsTo_namesOf (L.terminals_wellFormed.names.mono fun _ hs => .inl hs.2) fun rule hrule =>
    .inr (L.rulesNumbered.of_mem rule hrule).2.2.2

theorem startName_mem : L.startName ∈ L.names :=
  mem_namesOf_of_ruleNames (GrammarDef.terminals_eq_ok L.terminals_eq).2.1 L.rulesNumbered
    (GrammarDef.startName_eq_ok L.startName_eq)

theorem expansion_spec : L.expansion.WellFormed L.augmented ∧
    L.symbols.toList <+: L.expansion.symbols.toList ∧
    ∀ p ∈ L.productions, p.InOrder L.augmented L.expansion.symbols.size := by
  have ht := L.terminals_wellFormed
  refine expandRules_eq_ok L.rulesNumbered.size L.augmented_lt (fun rule hrule => ?_)
    (fun rule hrule => ⟨L.augmented_lt_of_mem hrule, L.lt_size_of_mem hrule⟩) L.productions_eq
  obtain ⟨hmem, hlex, _⟩ := L.rulesNumbered.of_mem rule hrule
  obtain ⟨_, _, hcovers, _⟩ := GrammarDef.terminals_eq_ok L.terminals_eq
  exact ⟨⟨L.mapsTo_names_usable, ht.literals.mono L.usable_of_isToken,
    ht.patterns.mono L.usable_of_isToken⟩, hcovers _ hmem hlex⟩

/-- The start production stands in front of productions that are in order. -/
theorem mem_productions {p : Production} (hp : p ∈ g.productions) :
    p = { lhs := L.augmented, steps := #[{ symbol := g.start }] } ∨
      p.InOrder L.augmented g.symbols.size := by
  rw [← Array.mem_toList_iff, L.productions_of] at hp
  rcases List.mem_cons.1 hp with rfl | hp
  · exact .inl rfl
  · exact .inr (L.symbols_of ▸ L.expansion_spec.2.2 p hp)

theorem start_usable : g.start.Usable L.augmented g.symbols.size := by
  obtain ⟨_, hgrows, _⟩ := L.expansion_spec
  rw [L.start_of, L.symbols_of]
  exact (L.mapsTo_names_usable.getD L.startName_mem Symbol.error).mono hgrows.length_le

theorem start_kind (L : Loading d g) : g.isTerminal g.start = true ∨
    ∃ info, g.symbols[g.start.index]? = some info ∧ info.kind = .nonterminal := by
  rw [Grammar.isTerminal, L.terminalCount_of, L.start_of, L.symbols_of]
  rcases L.mapsTo_names_kind.getD L.startName_mem Symbol.error with hterminal | ⟨info, hinfo, hkind⟩
  · exact .inl (decide_eq_true hterminal)
  · exact .inr ⟨info, getElem?_of_toList_isPrefix L.expansion_spec.2.1 hinfo, hkind⟩

theorem wellFormed (L : Loading d g) : g.WellFormed := by
  obtain ⟨hexpansion, hgrows, hproductions⟩ := L.expansion_spec
  have ht := L.terminals_wellFormed
  have hcount : g.terminalCount = L.augmented.index := L.terminalCount_of.trans L.index_augmented.symm
  have hlt : g.terminalCount < g.symbols.size := by
    rw [hcount, L.symbols_of]
    exact hexpansion.augmented_lt
  exact
    { terminals := L.terminalCount_of ▸ ht.pos
      augmented_lt := hlt
      size := L.symbols_of ▸ hexpansion.size
      start := by
        refine ⟨{ lhs := L.augmented, steps := #[{ symbol := g.start }] }, ?_, L.augmented_eq.symm, rfl⟩
        rw [← Array.getElem?_toList, L.productions_of, List.getElem?_cons_zero]
      start_kind := L.start_kind
      lhs := by
        intro p hp
        rcases L.mem_productions hp with rfl | ⟨hlow, hhigh, _⟩
        · exact ⟨Nat.le_of_eq hcount, hcount ▸ hlt⟩
        · exact ⟨hcount ▸ Nat.le_of_lt hlow, hhigh⟩
      lhs_augmented := by
        intro i p hp hlhs
        rw [← Array.getElem?_toList, L.productions_of] at hp
        exact Production.eq_zero_of_lhs_eq hproductions hp (hlhs.trans L.augmented_eq)
      rhs := by
        intro p hp s hs
        rw [L.augmented_eq]
        rcases L.mem_productions hp with rfl | ⟨_, _, hrhs⟩
        · rw [List.mem_singleton.1 hs]
          exact L.start_usable
        · exact hrhs s hs
      tokens := by
        rw [L.tokens_of, L.terminalCount_of]
        exact ht.tokens
      keywords := L.terminalCount_of ▸ (findKeywords_eq_ok ht L.keywords_eq).2
      externals := by
        obtain ⟨_, _, _, hexternals⟩ := GrammarDef.terminals_eq_ok L.terminals_eq
        rw [L.externals_of, L.terminalCount_of]
        exact fun s hs => hexternals s (List.mem_toArray.1 hs)
      conflicts := by
        intro set hset hmem
        obtain ⟨names, _, hnamed⟩ := exists_mem_of_mapM_eq_ok L.conflicts_eq set hset
        rw [L.augmented_eq, Grammar.origin, L.auxOrigin_of, hexpansion.lookup_augmented,
          Option.getD_none] at hmem
        exact (conflictSet_eq_ok L.mapsTo_names_usable hnamed L.augmented hmem).2.1 rfl }

end Loading

namespace Grammar

/-- What the expansion of the rules has made is in the grammar. -/
structure Expanded (g : Grammar) (scopeOf : String → Symbol → ExpansionScope)
    (symbols : Array SymbolInfo) (rules : List (String × Rule × Symbol)) (expansion : Expansion)
    (productions : List Production) : Prop where
  expand : expandRules scopeOf symbols rules = .ok (expansion, productions)
  wellFormed : expansion.WellFormed g.augmented
  symbols_eq : g.symbols = expansion.symbols
  grows : symbols.toList <+: expansion.symbols.toList
  kinds : ∀ rule ∈ rules, ∃ info, symbols[rule.2.2.index]? = some info ∧ info.kind = .nonterminal
  productions_eq : ∃ first, g.productions.toList = first :: productions ∧ first.rhs = [g.start]

theorem load_spec {d : GrammarDef} {g : Grammar} (h : Grammar.load d = .ok g) :
    g.WellFormed ∧ ∃ scopeOf symbols rules expansion productions,
      g.Expanded scopeOf symbols rules expansion productions := by
  obtain ⟨L⟩ := exists_loading h
  obtain ⟨hexpansion, hgrows, _⟩ := L.expansion_spec
  exact ⟨L.wellFormed, _, L.symbols, L.rules, L.expansion, L.productions, L.productions_eq,
    L.augmented_eq ▸ hexpansion, L.symbols_of, hgrows,
    fun rule hrule => (L.rulesNumbered.of_mem rule hrule).2.2.2, _, L.productions_of, rfl⟩

theorem load_wellFormed {d : GrammarDef} {g : Grammar} (h : Grammar.load d = .ok g) :
    g.WellFormed :=
  (load_spec h).1

end Grammar

end IncrementalLR
