import IncrementalLR.Proofs.Grammar.Repetition
import IncrementalLR.Proofs.Grammar.References

/-!
# How loaded grammars are laid out

Symbols are numbered in phases: the end of input, the tokens, the external tokens, the augmented start
symbol, the rules and the symbols of repetitions. No phase leaves a gap, so that what stands at a
number is known from the number alone: below the augmented start symbol there is a token or an
external, and each symbol from it on has productions.
-/

namespace IncrementalLR

/-! ### Terminals -/

namespace Terminals

/-- Behind the end of input stand the tokens in their order, and then the externals. -/
structure InOrder (t : Terminals) (externals : List Symbol) : Prop where
  size : t.symbols.size = t.tokens.size + 1 + externals.length
  tokens : ∀ i (token : TokenDef), t.tokens[i]? = some token → token.symbol.index = i + 1
  externals : ∀ i (s : Symbol), externals[i]? = some s → s.index = t.tokens.size + 1 + i

variable {t t' : Terminals} {externals : List Symbol}

theorem inOrder_initial : initial.InOrder [] := ⟨rfl, by simp [initial], by simp⟩

/-- One more token has the next number. -/
theorem InOrder.push (h : t.InOrder []) {info : SymbolInfo} {token : TokenDef}
    (hsymbols : t'.symbols = t.symbols.push info) (htokens : t'.tokens = t.tokens.push token)
    (hindex : token.symbol.index = t.symbols.size) : t'.InOrder [] := by
  have hsize := h.size
  rw [List.length_nil] at hsize
  refine ⟨?_, fun i other hother => ?_, by simp⟩
  · rw [hsymbols, htokens, Array.size_push, Array.size_push, hsize, List.length_nil]
  · rw [htokens, Array.getElem?_push] at hother
    split at hother
    · rename_i hi
      cases hother
      omega
    · exact h.tokens i other hother

theorem InOrder.addLexicalRule (h : t.InOrder []) {name : String} {body : Rule}
    (hadd : t.addLexicalRule name body = .ok t') : t'.InOrder [] := by
  rw [Terminals.addLexicalRule] at hadd
  obtain ⟨found, _, hadd⟩ := exists_of_bind_eq_ok hadd
  cases found with
  | none =>
      cases hadd
      exact h
  | some found =>
      obtain ⟨⟨s, symbols⟩, hsymbol, hadd⟩ := exists_of_bind_eq_ok hadd
      obtain ⟨_, hindex, rfl⟩ := addSymbol_eq_ok hsymbol
      cases hadd
      exact h.push rfl rfl hindex

theorem InOrder.addLiteral (h : t.InOrder []) {text : String} (hadd : t.addLiteral text = .ok t') :
    t'.InOrder [] := by
  rw [Terminals.addLiteral] at hadd
  split at hadd
  · cases hadd
    exact h
  · obtain ⟨⟨s, symbols⟩, hsymbol, hadd⟩ := exists_of_bind_eq_ok hadd
    obtain ⟨_, hindex, rfl⟩ := addSymbol_eq_ok hsymbol
    cases hadd
    exact h.push rfl rfl hindex

theorem InOrder.addPattern (h : t.InOrder []) {owner source : String}
    (hadd : t.addPattern owner source = .ok t') : t'.InOrder [] := by
  rw [Terminals.addPattern] at hadd
  split at hadd
  · cases hadd
    exact h
  · obtain ⟨⟨s, symbols⟩, hsymbol, hadd⟩ := exists_of_bind_eq_ok hadd
    obtain ⟨_, hindex, rfl⟩ := addSymbol_eq_ok hsymbol
    cases hadd
    exact h.push rfl rfl hindex

theorem InOrder.addExternal (h : t.InOrder externals) {name : String} {s : Symbol}
    (hadd : t.addExternal name = .ok (s, t')) : t'.InOrder (externals ++ [s]) := by
  rw [Terminals.addExternal] at hadd
  obtain ⟨⟨s', symbols⟩, hsymbol, hadd⟩ := exists_of_bind_eq_ok hadd
  obtain ⟨_, hindex, rfl⟩ := addSymbol_eq_ok hsymbol
  cases hadd
  have hsize := h.size
  refine ⟨?_, h.tokens, fun i other hother => ?_⟩
  · rw [Array.size_push, List.length_append, List.length_singleton, hsize]
    rfl
  · rcases getElem?_append_singleton_eq_some.1 hother with hother | ⟨rfl, rfl⟩
    · exact h.externals i other hother
    · rw [hindex, hsize]

theorem InOrder.exists_token_iff (h : t.InOrder externals) {s : Symbol} :
    (∃ token ∈ t.tokens, token.symbol = s) ↔ 0 < s.index ∧ s.index ≤ t.tokens.size := by
  constructor
  · rintro ⟨token, htoken, rfl⟩
    obtain ⟨i, hi⟩ := Array.mem_iff_getElem?.1 htoken
    obtain ⟨hlt, _⟩ := Array.getElem?_eq_some_iff.1 hi
    have hindex := h.tokens i token hi
    omega
  · rintro ⟨hlow, hhigh⟩
    have hlt : s.index - 1 < t.tokens.size := by omega
    have hi := Array.getElem?_eq_getElem hlt
    refine ⟨_, Array.mem_of_getElem? hi, Symbol.index_injective ?_⟩
    rw [h.tokens _ _ hi]
    omega

theorem InOrder.mem_externals_iff (h : t.InOrder externals) {s : Symbol} :
    s ∈ externals ↔ t.tokens.size < s.index ∧ s.index < t.symbols.size := by
  have hsize := h.size
  constructor
  · intro hs
    obtain ⟨i, hi⟩ := List.mem_iff_getElem?.1 hs
    obtain ⟨hlt, _⟩ := List.getElem?_eq_some_iff.1 hi
    have hindex := h.externals i s hi
    omega
  · rintro ⟨hlow, hhigh⟩
    have hlt : s.index - (t.tokens.size + 1) < externals.length := by omega
    have hi := List.getElem?_eq_getElem hlt
    have hindex := h.externals _ _ hi
    have heq : externals[s.index - (t.tokens.size + 1)] = s := Symbol.index_injective (by omega)
    rw [← heq]
    exact List.getElem_mem hlt

/-- No two tokens have the same symbol. -/
theorem InOrder.nodup (h : t.InOrder externals) :
    (t.tokens.toList.map fun token => token.symbol).Nodup := by
  refine List.nodup_iff_getElem?_ne_getElem?.2 fun i j hij hj heq => ?_
  rw [List.length_map, Array.length_toList] at hj
  have hi : i < t.tokens.size := Nat.lt_trans hij hj
  simp only [List.getElem?_map, Array.getElem?_toList, Array.getElem?_eq_getElem hi,
    Array.getElem?_eq_getElem hj, Option.map_some, Option.some.injEq] at heq
  have hindex := h.tokens i _ (Array.getElem?_eq_getElem hi)
  rw [heq, h.tokens j _ (Array.getElem?_eq_getElem hj)] at hindex
  omega

end Terminals

theorem GrammarDef.inOrder_terminals {d : GrammarDef} {t : Terminals} {externals : List Symbol}
    (h : d.terminals = .ok (t, externals)) : t.InOrder externals :=
  GrammarDef.terminals_induction Terminals.InOrder h Terminals.inOrder_initial
    (fun _ _ _ _ ht hadd => ht.addLexicalRule hadd)
    (fun _ ht => ⟨ht.size, ht.tokens, ht.externals⟩)
    (fun _ _ _ ht hadd => ht.addLiteral hadd)
    (fun _ _ _ _ ht hadd => ht.addPattern hadd)
    fun _ _ _ _ _ ht hadd => ht.addExternal hadd

/-! ### Rules and auxiliary symbols -/

/-- Every number from that of the first rule on is that of a rule. -/
theorem exists_rule_of_addNonterminals {symbols symbols' : Array SymbolInfo}
    {rules : List (String × Rule)} {found : List (String × Rule × Symbol)}
    (h : addNonterminals symbols rules = .ok (symbols', found)) :
    ∀ i, symbols.size ≤ i → i < symbols'.size → ∃ rule ∈ found, rule.2.2.index = i := by
  refine addNonterminals_induction (fun _ symbols' found => ∀ i, symbols.size ≤ i →
    i < symbols'.size → ∃ rule ∈ found, rule.2.2.index = i) h ?_ ?_ ?_
  · intro i hlow hhigh
    omega
  · intro _ _ _ _ _ _ _ _ hdone
    exact hdone
  · intro _ name body _ symbols₁ found₁ s _ _ _ hindex hdone i hlow hhigh
    rw [Array.size_push] at hhigh
    rcases Nat.lt_succ_iff_lt_or_eq.1 hhigh with hlt | rfl
    · obtain ⟨rule, hrule, heq⟩ := hdone i hlow hlt
      exact ⟨rule, List.mem_append_left _ hrule, heq⟩
    · exact ⟨_, List.mem_append_right _ List.mem_cons_self, hindex⟩

/-- Every number from the given one on is that of a symbol with alternatives. -/
def Expansion.Fills (n : Nat) (e : Expansion) : Prop :=
  ∀ i, n ≤ i → i < e.symbols.size → ∃ entry ∈ e.auxiliaries, entry.1.index = i ∧ entry.2 ≠ []

theorem fills_addRepetition {scope : ExpansionScope} {alts : List Alternative} {e e' : Expansion}
    {result : Option Symbol} {n : Nat} (h : e.Fills n)
    (hadd : addRepetition scope alts e = .ok (result, e')) : e'.Fills n := by
  cases addRepetition_spec hadd with
  | nothing => exact h
  | symbol s name hsize hindex hne =>
    intro i hlow hhigh
    rw [Array.size_push] at hhigh
    rcases Nat.lt_succ_iff_lt_or_eq.1 hhigh with hlt | rfl
    · obtain ⟨entry, hentry, hfound⟩ := h i hlow hlt
      exact ⟨entry, List.mem_cons_of_mem _ hentry, hfound⟩
    · refine ⟨_, List.mem_cons_self, hindex, ?_⟩
      simp only [ne_eq, List.append_eq_nil_iff, not_and]
      exact fun _ => hne

theorem carries_fills (scope : ExpansionScope) (n : Nat) :
    Carries scope fun e e' => e.Fills n → e'.Fills n :=
  ⟨fun _ h => h, fun h h' he => h' (h he), fun hadd h => fills_addRepetition h hadd⟩

theorem Alternative.distinct_ne_nil {alts : List Alternative} (h : alts ≠ []) :
    Alternative.distinct alts ≠ [] := by
  obtain ⟨a, ha⟩ := List.exists_mem_of_ne_nil alts h
  obtain ⟨b, hb, _⟩ := List.mem_map.1 (Alternative.symbols_mem_distinct ha)
  exact List.ne_nil_of_mem hb

/-- Every rule has a production, and every number behind the rules is that of an auxiliary symbol that
has one. -/
theorem exists_production_of_expandRules {scopeOf : String → Symbol → ExpansionScope}
    {symbols : Array SymbolInfo} {rules : List (String × Rule × Symbol)} {expansion : Expansion}
    {productions : List Production}
    (h : expandRules scopeOf symbols rules = .ok (expansion, productions)) :
    (∀ rule ∈ rules, ∃ p ∈ productions, p.lhs = rule.2.2) ∧
      ∀ i, symbols.size ≤ i → i < expansion.symbols.size →
        (∃ entry ∈ expansion.auxiliaries, entry.1.index = i) ∧ ∃ p ∈ productions, p.lhs.index = i := by
  obtain ⟨ps, ⟨hrules, hfills⟩, hproductions⟩ := expandRules_induction
    (fun done e ps => (∀ rule ∈ done, ∃ p ∈ ps, p.lhs = rule.2.2) ∧ e.Fills symbols.size) h
    ⟨by simp, fun i hlow hhigh => absurd hhigh (Nat.not_lt.2 hlow)⟩ (by
    rintro done name body s rest e e' alts ps rfl hexpand hne ⟨hdone, hfills⟩
    refine ⟨fun rule hrule => ?_, hexpand.relates (carries_fills _ _) hfills⟩
    rcases List.mem_append.1 hrule with hrule | hrule
    · obtain ⟨p, hp, hlhs⟩ := hdone rule hrule
      exact ⟨p, List.mem_append_left _ hp, hlhs⟩
    · obtain ⟨a, ha⟩ := List.exists_mem_of_ne_nil _ hne
      rw [List.mem_singleton.1 hrule]
      exact ⟨_, List.mem_append_right _ (List.mem_map_of_mem ha), rfl⟩)
  constructor
  · intro rule hrule
    obtain ⟨p, hp, hlhs⟩ := hrules rule hrule
    exact ⟨p, hproductions ▸ List.mem_append_left _ hp, hlhs⟩
  · intro i hlow hhigh
    obtain ⟨entry, hentry, hindex, hne⟩ := hfills i hlow hhigh
    obtain ⟨a, ha⟩ := List.exists_mem_of_ne_nil _ (Alternative.distinct_ne_nil hne)
    exact ⟨⟨entry, hentry, hindex⟩, _, toProduction_mem_of_expandRules h hentry ha, hindex⟩

/-! ### Field names -/

/-- The field names in a definition, in the order of their numbers. -/
def GrammarDef.fieldNames (d : GrammarDef) : List String :=
  sortedNames (d.rules.flatMap fun rule => rule.2.fieldNames)

theorem Rule.fieldNames_of_isLexical {body : Rule} (h : body.isLexical = true) :
    body.fieldNames = [] := by
  cases body with
  | literal text => rfl
  | pattern source => rfl
  | token body => rfl
  | _ => cases h

theorem fieldNames_of_addNonterminals {symbols symbols' : Array SymbolInfo}
    {rules : List (String × Rule)} {found : List (String × Rule × Symbol)}
    (h : addNonterminals symbols rules = .ok (symbols', found)) :
    found.flatMap (fun rule => rule.2.1.fieldNames) = rules.flatMap fun rule => rule.2.fieldNames := by
  refine addNonterminals_induction (fun done _ found => found.flatMap (fun rule => rule.2.1.fieldNames)
    = done.flatMap fun rule => rule.2.fieldNames) h rfl ?_ ?_
  · intro done name body _ _ found _ hlex hdone
    rw [List.flatMap_append, hdone, List.flatMap_singleton, Rule.fieldNames_of_isLexical hlex,
      List.append_nil]
  · intro done name body _ _ found s _ _ _ _ hdone
    rw [List.flatMap_append, List.flatMap_append, hdone, List.flatMap_singleton,
      List.flatMap_singleton]

/-! ### The layout -/

namespace Grammar

/-- What stands where in a grammar. -/
structure LaidOut (d : GrammarDef) (g : Grammar) : Prop where
  terminalCount_lt : g.terminalCount < g.symbols.size
  terminals : ∀ s, g.isTerminal s = true ↔
    s = Symbol.eof ∨ (∃ token ∈ g.tokens, token.symbol = s) ∨ s ∈ g.externals
  /-- one token for every terminal but the end of input and the externals -/
  tokens : ∀ s, g.isTerminal s = true → g.tokens.countP (fun token => token.symbol = s)
    = if s = Symbol.eof ∨ s ∈ g.externals then 0 else 1
  lhs : ∀ p ∈ g.productions, ∃ info, g.symbols[p.lhs.index]? = some info ∧
    (info.kind = .nonterminal ∨ info.kind = .auxiliary)
  steps : ∀ p ∈ g.productions, ∀ step ∈ p.steps, step.symbol.index < g.symbols.size ∧
    ∀ f ∈ step.field, f.index < g.fields.size
  augmented : ∃ info, g.symbols[g.augmented.index]? = some info ∧ info.name = augmentedStartName ∧
    info.kind = .auxiliary
  start : ∃ name, d.startName = .ok name ∧ g.start = g.nameSymbol name ∧
    g.productions[0]? = some { lhs := g.augmented, steps := #[{ symbol := g.start }] }
  productions : ∀ i info, g.symbols[i]? = some info →
    info.kind = .nonterminal ∨ info.kind = .auxiliary → ∃ p ∈ g.productions, p.lhs.index = i
  word : ∀ s ∈ g.word, g.isTerminal s = true
  keywords : ∀ entry ∈ g.keywords, g.isTerminal entry.2 = true
  extras : ∀ s ∈ g.extras, g.isTerminal s = true
  externals : ∀ s ∈ g.externals, g.isTerminal s = true

end Grammar

namespace Loading

variable {d : GrammarDef} {g : Grammar}

theorem inOrder (L : Loading d g) : L.terminals.InOrder L.externals :=
  GrammarDef.inOrder_terminals L.terminals_eq

theorem augmented_info (L : Loading d g) : g.symbols[g.augmented.index]?
    = some ⟨augmentedStartName, .auxiliary, false, false, false⟩ := by
  rw [L.augmented_eq, L.symbols_of]
  refine getElem?_of_toList_isPrefix (L.rulesNumbered.grows.trans L.adds.grows) ?_
  rw [L.augmented_index, Array.getElem?_push_size]

theorem kind_of_lt (L : Loading d g) {i : Nat} {info : SymbolInfo}
    (hinfo : g.symbols[i]? = some info) (hi : i < g.terminalCount) : info.kind.isTerminal = true := by
  rw [L.terminalCount_of] at hi
  have hcore := L.core_symbols hi
  rw [Array.getD_eq_getD_getElem?, hinfo, Option.getD_some] at hcore
  have hterminal := (L.terminals_indexed.plain i hi).1
  rwa [← SymbolInfo.kind_core, ← hcore, SymbolInfo.kind_core] at hterminal

/-- From the augmented start symbol on, every symbol has a rule, a repetition or the start production
behind it. -/
theorem exists_of_le (L : Loading d g) {i : Nat} (hlow : g.terminalCount ≤ i)
    (hhigh : i < g.symbols.size) :
    (∃ info, g.symbols[i]? = some info ∧ (info.kind = .nonterminal ∨ info.kind = .auxiliary)) ∧
      ∃ p ∈ g.productions, p.lhs.index = i := by
  have hcount : g.terminalCount = L.augmented.index := L.terminalCount_of.trans L.index_augmented.symm
  have hmem : ∀ p ∈ L.productions, p ∈ g.productions := by
    intro p hp
    rw [← Array.mem_toList_iff, L.productions_of]
    exact List.mem_cons_of_mem _ hp
  obtain ⟨hrules, hauxiliaries⟩ := exists_production_of_expandRules L.productions_eq
  by_cases haug : i = L.augmented.index
  · subst haug
    refine ⟨⟨_, L.augmented_eq ▸ L.augmented_info, .inr rfl⟩, ?_⟩
    refine ⟨{ lhs := L.augmented, steps := #[{ symbol := g.start }] }, ?_, rfl⟩
    rw [← Array.mem_toList_iff, L.productions_of]
    exact List.mem_cons_self
  by_cases hrule : i < L.symbols.size
  · have hbase : (L.extras.symbols.push ⟨augmentedStartName, .auxiliary, false, false, false⟩).size
        ≤ i := by
      rw [Array.size_push, ← L.augmented_index]
      omega
    obtain ⟨rule, hmemRule, rfl⟩ := exists_rule_of_addNonterminals L.rules_eq i hbase hrule
    obtain ⟨_, _, _, info, hinfo, hkind⟩ := L.rulesNumbered.of_mem rule hmemRule
    obtain ⟨p, hp, hlhs⟩ := hrules rule hmemRule
    refine ⟨⟨info, ?_, .inl hkind⟩, p, hmem p hp, congrArg Symbol.index hlhs⟩
    rw [L.symbols_of]
    exact getElem?_of_toList_isPrefix L.adds.grows hinfo
  · rw [L.symbols_of] at hhigh
    obtain ⟨⟨entry, hentry, rfl⟩, p, hp, hlhs⟩ := hauxiliaries i (Nat.le_of_not_lt hrule) hhigh
    have hnumbered : L.expansion.Numbered L.symbols.size :=
      L.adds.numbered ⟨Nat.le_refl _, by simp, .nil⟩
    obtain ⟨_, info, hinfo, hkind⟩ := hnumbered.auxiliary entry hentry
    exact ⟨⟨info, L.symbols_of ▸ hinfo, .inr hkind⟩, p, hmem p hp, hlhs⟩

theorem fields_eq (L : Loading d g) : g.fields = d.fieldNames.toArray := by
  rw [L.fields_of, fieldNames_of_addNonterminals L.rules_eq, GrammarDef.fieldNames]

theorem isTerminal_iff (L : Loading d g) {s : Symbol} : g.isTerminal s = true ↔
    s = Symbol.eof ∨ (∃ token ∈ g.tokens, token.symbol = s) ∨ s ∈ g.externals := by
  have hsize := L.inOrder.size
  have heof : s = Symbol.eof ↔ s.index = 0 := Symbol.index_inj.symm
  rw [Grammar.isTerminal, decide_eq_true_iff, L.terminalCount_of, L.tokens_of, L.externals_of,
    List.mem_toArray, heof, L.inOrder.exists_token_iff, L.inOrder.mem_externals_iff]
  omega

theorem countP_tokens (L : Loading d g) {s : Symbol} (hs : g.isTerminal s = true) :
    g.tokens.countP (fun token => token.symbol = s)
      = if s = Symbol.eof ∨ s ∈ g.externals then 0 else 1 := by
  have hmem : s ∈ g.tokens.toList.map (fun token => token.symbol) ↔
      ∃ token ∈ g.tokens, token.symbol = s := by
    simp only [List.mem_map, Array.mem_toList_iff]
  have hcount : g.tokens.countP (fun token => token.symbol = s)
      = if s ∈ g.tokens.toList.map (fun token => token.symbol) then 1 else 0 := by
    have hnodup : (g.tokens.toList.map fun token => token.symbol).Nodup := L.tokens_of ▸ L.inOrder.nodup
    calc g.tokens.countP (fun token => token.symbol = s)
      _ = (g.tokens.toList.map fun token => token.symbol).count s := by
        rw [List.count_eq_countP, List.countP_map, Array.countP_toList]
        rfl
      _ = _ := hnodup.count
  rw [hcount]
  by_cases hother : s = Symbol.eof ∨ s ∈ g.externals
  · rw [if_pos hother, if_neg]
    rw [hmem, L.tokens_of, L.inOrder.exists_token_iff]
    rw [← Symbol.index_inj, L.externals_of, List.mem_toArray, L.inOrder.mem_externals_iff] at hother
    have hzero : Symbol.eof.index = 0 := rfl
    omega
  · rw [if_neg hother, if_pos]
    rw [hmem]
    rcases L.isTerminal_iff.1 hs with heof | htoken | hexternal
    · exact absurd (.inl heof) hother
    · exact htoken
    · exact absurd (.inr hexternal) hother

theorem laidOut (L : Loading d g) (hfields : d.fieldNames.length ≤ 65535)
    (hreferences : g.References) : g.LaidOut d := by
  have hg := L.wellFormed
  have hterminal : ∀ s : Symbol, s.IsToken g.terminalCount → g.isTerminal s = true :=
    fun s hs => decide_eq_true hs.2
  exact
    { terminalCount_lt := hg.augmented_lt
      terminals := fun _ => L.isTerminal_iff
      tokens := fun _ => L.countP_tokens
      lhs := by
        intro p hp
        obtain ⟨hlow, hhigh⟩ := hg.lhs p hp
        exact (L.exists_of_le hlow hhigh).1
      steps := by
        intro p hp step hstep
        have hrhs : step.symbol ∈ p.rhs := List.mem_map_of_mem (Array.mem_toList_iff.2 hstep)
        refine ⟨(hg.rhs p hp _ hrhs).2.2, fun f hf => ?_⟩
        obtain ⟨i, hi, rfl⟩ := hreferences.fields p hp step hstep f hf
        rw [L.fields_eq, List.size_toArray] at hi ⊢
        rw [FieldId.index, Nat.toUInt16_eq, UInt16.toNat_ofNat', Nat.mod_eq_of_lt (by omega)]
        exact hi
      augmented := ⟨_, L.augmented_info, rfl, rfl⟩
      start := by
        refine ⟨L.startName, L.startName_eq, ?_, ?_⟩
        · rw [Grammar.nameSymbol, ← L.getElem?_names, L.start_of]
          rfl
        · rw [← Array.getElem?_toList, L.productions_of, List.getElem?_cons_zero, L.augmented_eq]
      productions := by
        intro i info hinfo hkind
        obtain ⟨hhigh, _⟩ := Array.getElem?_eq_some_iff.1 hinfo
        refine (L.exists_of_le (Nat.le_of_not_lt fun hlt => ?_) hhigh).2
        have hterminal := L.kind_of_lt hinfo hlt
        rcases hkind with hkind | hkind <;> rw [hkind] at hterminal <;> cases hterminal
      word := fun s hs => hterminal s (hreferences.word s hs)
      keywords := fun entry hentry => hterminal _ (hg.keywords entry hentry)
      extras := fun s hs => hterminal s (hreferences.extras s hs)
      externals := fun s hs => hterminal s (hg.externals s hs) }

end Loading

end IncrementalLR
