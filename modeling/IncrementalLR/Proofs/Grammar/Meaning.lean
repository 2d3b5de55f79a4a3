import IncrementalLR.Proofs.Grammar.ExpandedLanguage

/-!
# The meaning of loaded rules

Loading resolves the names and texts in a rule to the symbols that the grammar has for them, gives
every rule a symbol of its own and writes exactly the alternatives of a symbol into productions. With
what expansion makes of rule expressions, the strings that the symbol of a rule generates are those
that the body of the rule stands for.
-/

namespace IncrementalLR

/-! ### Distinct names -/

theorem nodup_of_duplicateName? {seen names : List String}
    (h : GrammarDef.duplicateName? seen names = none) :
    names.Nodup ∧ ∀ name ∈ names, name ∉ seen := by
  induction names generalizing seen with
  | nil => exact ⟨List.nodup_nil, by simp⟩
  | cons name names ih =>
      rw [GrammarDef.duplicateName?] at h
      split at h
      · cases h
      · rename_i hname
        obtain ⟨hnodup, hnot⟩ := ih h
        refine ⟨List.nodup_cons.2 ⟨fun hmem => hnot name hmem List.mem_cons_self, hnodup⟩, ?_⟩
        intro other hother
        rcases List.mem_cons.1 hother with rfl | hother
        · exact fun hmem => hname (List.contains_iff_mem.2 hmem)
        · exact fun hmem => hnot other hother (List.mem_cons_of_mem name hmem)

theorem GrammarDef.nodup_of_startName {d : GrammarDef} {name : String}
    (h : d.startName = .ok name) : d.ruleNames.Nodup := by
  rw [GrammarDef.startName] at h
  split at h
  · cases h
  · obtain ⟨first, _, h⟩ := exists_of_bind_eq_ok h
    simp only at h
    split at h
    · cases h
    · rename_i hnone
      have hnone : GrammarDef.duplicateName? [] d.ruleNames = none :=
        Option.eq_none_iff_forall_ne_some.2 hnone
      exact (nodup_of_duplicateName? hnone).1

/-! ### Extras -/

/-- All but the flag of extras. -/
def SymbolInfo.core (info : SymbolInfo) : SymbolInfo := { info with extra := false }

theorem SymbolInfo.kind_core (info : SymbolInfo) : info.core.kind = info.kind := rfl

theorem SymbolInfo.named_core (info : SymbolInfo) : info.core.named = info.named := rfl

theorem core_extrasAdd {ruleNames : List String} {names : Std.HashMap String Symbol}
    {e e' : Extras} {rule : Rule} (h : Extras.add ruleNames names e rule = .ok e') (i : Nat) :
    (e'.symbols.getD i SymbolInfo.error).core = (e.symbols.getD i SymbolInfo.error).core := by
  cases Extras.add_spec h with
  | skip => rfl
  | token hname =>
      simp only [Array.getD_eq_getD_getElem?, Array.getElem?_modify]
      split
      · cases e.symbols[i]? <;> rfl
      · rfl

/-- Extras are named tokens, so the end of input does not become one. -/
theorem extra_eof_extrasAdd {ruleNames : List String} {names : Std.HashMap String Symbol} {size : Nat}
    (hnames : MapsTo names (Symbol.IsToken size)) {e e' : Extras} {rule : Rule}
    (h : Extras.add ruleNames names e rule = .ok e') :
    (e'.symbols.getD Symbol.eof.index SymbolInfo.error).extra
      = (e.symbols.getD Symbol.eof.index SymbolInfo.error).extra := by
  cases Extras.add_spec h with
  | skip => rfl
  | @token name s hname =>
      have hne : s.index ≠ Symbol.eof.index := Nat.ne_of_gt (hnames name s hname).1
      simp only [Array.getD_eq_getD_getElem?, Array.getElem?_modify, if_neg hne]

/-! ### Rule symbols -/

/-- The names of the rules numbered so far lead to their symbols, and these are all different. -/
structure RulesNamed (symbols symbols' : Array SymbolInfo) (names : Std.HashMap String Symbol)
    (found : List (String × Rule × Symbol)) : Prop where
  names : ∀ name, (namesOf names found)[name]? = findSymbol (SymbolInfo.isNamed name) symbols'
  literals : ∀ text, findSymbol (SymbolInfo.isLiteral text) symbols'
    = findSymbol (SymbolInfo.isLiteral text) symbols
  symbol : ∀ rule ∈ found, rule.2.2.index < symbols'.size ∧
    findSymbol (SymbolInfo.isNamed rule.1) symbols' = some rule.2.2
  distinct : found.Pairwise fun a b => a.2.2 ≠ b.2.2

theorem RulesNamed.add {symbols symbols' : Array SymbolInfo} {names : Std.HashMap String Symbol}
    {found : List (String × Rule × Symbol)} (h : RulesNamed symbols symbols' names found)
    {name : String} (hfresh : ∀ rule ∈ found, rule.1 ≠ name) {s : Symbol}
    (hindex : s.index = symbols'.size) (visible : Bool) (body : Rule) :
    RulesNamed symbols (symbols'.push ⟨name, .nonterminal, visible, true, false⟩) names
      (found ++ [(name, body, s)]) := by
  refine ⟨fun key => ?_, fun text => ?_, fun rule hrule => ?_, ?_⟩
  · rw [namesOf, List.foldl_append, List.foldl_cons, List.foldl_nil, Std.HashMap.getElem?_insert,
      findSymbol_push, ← hindex, Symbol.ofIndex_index, ← h.names]
    rfl
  · rw [findSymbol_push_of_false, h.literals]
    simp only [SymbolInfo.isLiteral, Bool.not_true, Bool.and_false, Bool.false_and]
  · rw [Array.size_push]
    rcases List.mem_append.1 hrule with hrule | hrule
    · obtain ⟨hlt, hfind⟩ := h.symbol rule hrule
      refine ⟨Nat.lt_succ_of_lt hlt, ?_⟩
      rw [findSymbol_push_of_false, hfind]
      simpa only [SymbolInfo.isNamed, Bool.true_and] using
        beq_false_of_ne (hfresh rule hrule).symm
    · rw [List.mem_singleton.1 hrule]
      refine ⟨by simp only [hindex, Nat.lt_succ_self], ?_⟩
      rw [findSymbol_push, ← hindex, Symbol.ofIndex_index]
      simp only [SymbolInfo.isNamed, beq_self_eq_true, Bool.and_self, if_true]
  · refine List.pairwise_append.2 ⟨h.distinct, List.pairwise_singleton _ _, ?_⟩
    intro rule hrule new hnew heq
    rw [List.mem_singleton.1 hnew] at heq
    have hlt := (h.symbol rule hrule).1
    rw [heq, hindex] at hlt
    exact Nat.lt_irrefl _ hlt

theorem named_addNonterminals {symbols symbols' : Array SymbolInfo} {rules : List (String × Rule)}
    {found : List (String × Rule × Symbol)} {names : Std.HashMap String Symbol}
    (h : addNonterminals symbols rules = .ok (symbols', found)) (hnodup : (rules.map (·.1)).Nodup)
    (hnames : ∀ name, names[name]? = findSymbol (SymbolInfo.isNamed name) symbols) :
    RulesNamed symbols symbols' names found := by
  -- the names so far are those of rules in front, so the next name is a new one
  refine (addNonterminals_induction (fun done symbols' found => RulesNamed symbols symbols' names found
    ∧ ∀ rule ∈ found, rule.1 ∈ done.map (·.1)) h ⟨⟨hnames, fun _ => rfl, by simp, .nil⟩, by simp⟩
    ?_ ?_).1
  · rintro done name body rest symbols₁ found₁ - - ⟨hnamed, hdone⟩
    refine ⟨hnamed, fun rule hrule => ?_⟩
    rw [List.map_append]
    exact List.mem_append_left _ (hdone rule hrule)
  · rintro done name body rest symbols₁ found₁ s rfl - - hindex ⟨hnamed, hdone⟩
    have hfresh : ∀ rule ∈ found₁, rule.1 ≠ name := by
      rintro rule hrule rfl
      rw [List.map_append, List.map_cons] at hnodup
      exact (List.nodup_append.1 hnodup).2.2 _ (hdone rule hrule) _ List.mem_cons_self rfl
    refine ⟨hnamed.add hfresh hindex _ body, fun rule hrule => ?_⟩
    rw [List.map_append]
    rcases List.mem_append.1 hrule with hrule | hrule
    · exact List.mem_append_left _ (hdone rule hrule)
    · rw [List.mem_singleton.1 hrule]
      exact List.mem_append_right _ List.mem_cons_self

/-! ### Productions -/

/-- The productions of a symbol are the alternatives. -/
def ProducesExactly (productions : List Production) (s : Symbol) (alts : List Alternative) : Prop :=
  ∀ rhs, (∃ p ∈ productions, p.lhs = s ∧ p.rhs = rhs) ↔ rhs ∈ alts.map Alternative.symbols

theorem producesExactly_distinct (s : Symbol) (alts : List Alternative) :
    ProducesExactly ((Alternative.distinct alts).map (·.toProduction s)) s alts := by
  intro rhs
  rw [← Alternative.mem_map_symbols_distinct]
  constructor
  · rintro ⟨p, hp, _, rfl⟩
    obtain ⟨a, ha, rfl⟩ := List.mem_map.1 hp
    rw [Alternative.rhs_toProduction]
    exact List.mem_map_of_mem ha
  · intro hrhs
    obtain ⟨a, ha, rfl⟩ := List.mem_map.1 hrhs
    exact ⟨_, List.mem_map_of_mem ha, rfl, Alternative.rhs_toProduction s a⟩

theorem lhs_of_mem_distinct {s : Symbol} {alts : List Alternative} {p : Production}
    (hp : p ∈ (Alternative.distinct alts).map (·.toProduction s)) : p.lhs = s := by
  obtain ⟨a, _, rfl⟩ := List.mem_map.1 hp
  rfl

/-- Productions of other symbols do not count. -/
theorem ProducesExactly.append {ps qs : List Production} {s : Symbol} {alts : List Alternative}
    (h : ProducesExactly ps s alts) (hqs : ∀ q ∈ qs, q.lhs ≠ s) :
    ProducesExactly (ps ++ qs) s alts := by
  intro rhs
  rw [← h rhs]
  constructor
  · rintro ⟨p, hp, hlhs, hrhs⟩
    rcases List.mem_append.1 hp with hp | hp
    · exact ⟨p, hp, hlhs, hrhs⟩
    · exact absurd hlhs (hqs p hp)
  · rintro ⟨p, hp, hp'⟩
    exact ⟨p, List.mem_append_left _ hp, hp'⟩

theorem ProducesExactly.perm {ps qs : List Production} {s : Symbol} {alts : List Alternative}
    (h : ProducesExactly ps s alts) (hqs : ∀ p, p ∈ qs ↔ p ∈ ps) : ProducesExactly qs s alts := by
  intro rhs
  rw [← h rhs]
  exact exists_congr fun p => and_congr_left' (hqs p)

/-- The productions of auxiliary symbols, each symbol with its alternatives. -/
theorem producesExactly_auxiliaries {entries : List (Symbol × List Alternative)}
    (hdistinct : entries.Pairwise fun a b => a.1 ≠ b.1) {entry : Symbol × List Alternative}
    (hentry : entry ∈ entries) :
    ProducesExactly (entries.flatMap fun entry => (Alternative.distinct entry.2).map
      (·.toProduction entry.1)) entry.1 entry.2 := by
  induction entries with
  | nil => cases hentry
  | cons first entries ih =>
      obtain ⟨hfirst, hdistinct⟩ := List.pairwise_cons.1 hdistinct
      rw [List.flatMap_cons]
      rcases List.mem_cons.1 hentry with rfl | hentry
      · refine (producesExactly_distinct entry.1 entry.2).append fun q hq => ?_
        obtain ⟨other, hother, hq⟩ := List.mem_flatMap.1 hq
        rw [lhs_of_mem_distinct hq]
        exact (hfirst other hother).symm
      · have hothers : ∀ q ∈ (Alternative.distinct first.2).map (·.toProduction first.1),
            q.lhs ≠ entry.1 := by
          intro q hq
          rw [lhs_of_mem_distinct hq]
          exact hfirst entry hentry
        refine ((ih hdistinct hentry).append hothers).perm fun p => ?_
        rw [List.mem_append, List.mem_append, or_comm]

/-- The symbol has the alternatives of the rule, which were made at some point of the expansion. -/
def ExpandsTo (scope : ExpansionScope) (body : Rule) (s : Symbol) (final : Expansion)
    (productions : List Production) : Prop :=
  ∃ e e' alts, expand scope body e = .ok (alts, e') ∧ e'.auxiliaries <:+ final.auxiliaries ∧
    ProducesExactly productions s alts

theorem ExpandsTo.mono {scope : ExpansionScope} {body : Rule} {s : Symbol} {e e' : Expansion}
    {ps qs : List Production} (h : ExpandsTo scope body s e ps)
    (hle : e.auxiliaries <:+ e'.auxiliaries) (hps : ∀ {alts}, ProducesExactly ps s alts →
      ProducesExactly qs s alts) : ExpandsTo scope body s e' qs := by
  obtain ⟨e₁, e₂, alts, hexpand, hsuffix, halts⟩ := h
  exact ⟨e₁, e₂, alts, hexpand, hsuffix.trans hle, hps halts⟩

section ExpandRules

variable {scopeOf : String → Symbol → ExpansionScope} {symbols : Array SymbolInfo}
  {rules : List (String × Rule × Symbol)} {expansion : Expansion} {productions : List Production}

/-- What expanding some of the rules has made. -/
structure RulesExpanded (scopeOf : String → Symbol → ExpansionScope) (symbols : Array SymbolInfo)
    (done : List (String × Rule × Symbol)) (e : Expansion) (productions : List Production) : Prop where
  adds : Expansion.Adds symbols.size { symbols := symbols } e
  expands : ∀ rule ∈ done, ExpandsTo (scopeOf rule.1 rule.2.2) rule.2.1 rule.2.2 e productions
  lhs : ∀ p ∈ productions, ∃ rule ∈ done, p.lhs = rule.2.2

theorem RulesExpanded.add {done : List (String × Rule × Symbol)} {name : String} {body : Rule}
    {s : Symbol} {e e' : Expansion} {alts : List Alternative} {ps : List Production}
    (h : RulesExpanded scopeOf symbols done e ps) (hfresh : ∀ rule ∈ done, rule.2.2 ≠ s)
    (hexpand : Expands (scopeOf name s) body { e with repeatCount := 0 } alts e') :
    RulesExpanded scopeOf symbols (done ++ [(name, body, s)]) e'
      (ps ++ (Alternative.distinct alts).map (·.toProduction s)) := by
  have hadds : Expansion.Adds symbols.size e e' := by
    obtain ⟨hgrows, hauxiliaries, hnumbered, hfind⟩ :=
      hexpand.relates (carries_adds (scopeOf name s) symbols.size)
    exact ⟨hgrows, hauxiliaries, fun hn => hnumbered ⟨hn.size, hn.auxiliary, hn.distinct⟩, hfind⟩
  refine ⟨h.adds.trans hadds, fun rule hrule => ?_, fun p hp => ?_⟩
  · rcases List.mem_append.1 hrule with hrule | hrule
    · refine (h.expands rule hrule).mono hadds.auxiliaries fun halts => halts.append fun q hq => ?_
      rw [lhs_of_mem_distinct hq]
      exact (hfresh rule hrule).symm
    · rw [List.mem_singleton.1 hrule]
      refine ⟨_, e', alts, hexpand.expand_eq_ok, List.suffix_refl _,
        ((producesExactly_distinct s alts).append fun q hq => ?_).perm fun p => by
          rw [List.mem_append, List.mem_append, or_comm]⟩
      obtain ⟨rule, hrule, hlhs⟩ := h.lhs q hq
      rw [hlhs]
      exact hfresh rule hrule
  · rcases List.mem_append.1 hp with hp | hp
    · obtain ⟨rule, hrule, hlhs⟩ := h.lhs p hp
      exact ⟨rule, List.mem_append_left _ hrule, hlhs⟩
    · exact ⟨_, List.mem_append_right _ List.mem_cons_self, lhs_of_mem_distinct hp⟩

/-- Every rule has the productions of its alternatives, and so has every auxiliary symbol. -/
theorem expandRules_spec (hdistinct : rules.Pairwise fun a b => a.2.2 ≠ b.2.2)
    (hlt : ∀ rule ∈ rules, rule.2.2.index < symbols.size)
    (h : expandRules scopeOf symbols rules = .ok (expansion, productions)) :
    Expansion.Adds symbols.size { symbols := symbols } expansion ∧
      (∀ rule ∈ rules,
        ExpandsTo (scopeOf rule.1 rule.2.2) rule.2.1 rule.2.2 expansion productions) ∧
      ∀ entry ∈ expansion.auxiliaries, ProducesExactly productions entry.1 entry.2 := by
  obtain ⟨ps, hdone, rfl⟩ := expandRules_induction (RulesExpanded scopeOf symbols) h
    ⟨.refl _ _, by simp, by simp⟩ (by
    rintro done name body s rest e e' alts ps rfl hexpand - hdone
    refine hdone.add (fun rule hrule => ?_) hexpand
    exact (List.pairwise_append.1 hdistinct).2.2 rule hrule _ List.mem_cons_self)
  have hnumbered : expansion.Numbered symbols.size :=
    hdone.adds.numbered ⟨Nat.le_refl _, by simp, .nil⟩
  refine ⟨hdone.adds, fun rule hrule => ?_, fun entry hentry => ?_⟩
  · refine (hdone.expands rule hrule).mono (List.suffix_refl _) fun halts =>
      halts.append fun q hq => ?_
    obtain ⟨entry, hentry, hq⟩ := List.mem_flatMap.1 hq
    rw [lhs_of_mem_distinct hq]
    rintro heq
    have hlow := (hnumbered.auxiliary entry (List.mem_reverse.1 hentry)).1
    have hhigh := hlt rule hrule
    rw [heq] at hlow
    omega
  · have hreverse : expansion.auxiliaries.reverse.Pairwise fun a b => a.1 ≠ b.1 :=
      List.pairwise_reverse.2 (hnumbered.distinct.imp fun hne => hne.symm)
    refine ((producesExactly_auxiliaries hreverse (List.mem_reverse.2 hentry)).append
      fun q hq => ?_).perm fun p => by rw [List.mem_append, List.mem_append, or_comm]
    obtain ⟨rule, hrule, hlhs⟩ := hdone.lhs q hq
    rw [hlhs]
    rintro heq
    have hlow := (hnumbered.auxiliary entry hentry).1
    have hhigh := hlt rule hrule
    rw [heq] at hhigh
    omega

end ExpandRules

/-! ### Loading -/

theorem getD_of_grows {symbols symbols' : Array SymbolInfo}
    (h : symbols.toList <+: symbols'.toList) {i : Nat} (hi : i < symbols.size) (d : SymbolInfo) :
    symbols'.getD i d = symbols.getD i d := by
  rw [Array.getD_eq_getD_getElem?, Array.getD_eq_getD_getElem?,
    getElem?_of_toList_isPrefix h (Array.getElem?_eq_getElem hi), Array.getElem?_eq_getElem hi]

theorem findSymbol_core {P : SymbolInfo → Bool} (hP : ∀ info, P info.core = P info)
    {symbols symbols' : Array SymbolInfo} (hsize : symbols'.size = symbols.size)
    (h : ∀ i, (symbols'.getD i SymbolInfo.error).core = (symbols.getD i SymbolInfo.error).core) :
    findSymbol P symbols' = findSymbol P symbols :=
  findSymbol_congr hsize fun i => by rw [← hP, h i, hP]

namespace Grammar

variable {g : Grammar}

theorem not_isAuxiliary_of_kind {s : Symbol}
    (h : (g.symbols.getD s.index SymbolInfo.error).kind ≠ .auxiliary) : ¬ g.IsAuxiliary s := by
  rw [IsAuxiliary, symbolInfo]
  split
  · decide
  · exact h

theorem not_isAuxiliary_error : ¬ g.IsAuxiliary Symbol.error := by
  rw [IsAuxiliary, symbolInfo, if_pos rfl]
  decide

theorem WellFormed.isAuxiliary_of_kind (h : g.WellFormed) {s : Symbol} {info : SymbolInfo}
    (hinfo : g.symbols[s.index]? = some info) (hkind : info.kind = .auxiliary) :
    g.IsAuxiliary s := by
  obtain ⟨hlt, _⟩ := Array.getElem?_eq_some_iff.1 hinfo
  have hsize := h.size
  rw [IsAuxiliary, symbolInfo, if_neg (Symbol.ne_error_of_index_lt (by omega)),
    Array.getD_eq_getD_getElem?, hinfo]
  exact hkind

end Grammar

theorem Terminals.Indexed.not_isAuxiliary {t : Terminals} {g : Grammar} (h : t.Indexed)
    (hcore : ∀ i < t.symbols.size, (g.symbols.getD i SymbolInfo.error).core
      = (t.symbols.getD i SymbolInfo.error).core) (s : Symbol) (hs : s.IsToken t.symbols.size) :
    ¬ g.IsAuxiliary s := by
  refine Grammar.not_isAuxiliary_of_kind fun hkind => ?_
  have hterminal := (h.plain s.index hs.2).1
  rw [← SymbolInfo.kind_core, ← hcore _ hs.2, SymbolInfo.kind_core, hkind] at hterminal
  cases hterminal

/-- The productions of a symbol other than the augmented start symbol. -/
theorem ProducesExactly.produces {g : Grammar} {first : Production} {ps : List Production}
    (hg : g.productions.toList = first :: ps) {s : Symbol} (hs : first.lhs ≠ s)
    {alts : List Alternative} (h : ProducesExactly ps s alts) (rhs : List Symbol) :
    g.Produces s rhs ↔ rhs ∈ alts.map Alternative.symbols := by
  rw [← h rhs]
  refine exists_congr fun p => ?_
  rw [← Array.mem_toList_iff, hg, List.mem_cons]
  constructor
  · rintro ⟨rfl | hp, hlhs, hrhs⟩
    · exact absurd hlhs hs
    · exact ⟨hp, hlhs, hrhs⟩
  · rintro ⟨hp, hp'⟩
    exact ⟨.inr hp, hp'⟩

/-- Maps that agree with the symbols of a grammar resolve names and texts to them. -/
theorem ExpansionScope.resolves_of_terminals {scope : ExpansionScope} {g : Grammar} {t : Terminals}
    (ht : t.WellFormed) (hindexed : t.Indexed)
    (hnames : ∀ name, scope.names[name]? = findSymbol (SymbolInfo.isNamed name) g.symbols)
    (hnamed : MapsTo scope.names fun s => ¬ g.IsAuxiliary s)
    (hliterals : scope.literals = t.literals) (hpatterns : scope.patterns = t.patterns)
    (htokens : g.tokens = t.tokens)
    (hfind : ∀ text, findSymbol (SymbolInfo.isLiteral text) g.symbols
      = findSymbol (SymbolInfo.isLiteral text) t.symbols)
    (hcore : ∀ i < t.symbols.size, (g.symbols.getD i SymbolInfo.error).core
      = (t.symbols.getD i SymbolInfo.error).core) : scope.Resolves g := by
  have hterminal := hindexed.not_isAuxiliary hcore
  have hgetD : ∀ {m : Std.HashMap String Symbol}, MapsTo m (Symbol.IsToken t.symbols.size) →
      ∀ key : String, ¬ g.IsAuxiliary ((m[key]?).getD Symbol.error) := by
    intro m hm key
    cases hs : m[key]? with
    | none => exact Grammar.not_isAuxiliary_error
    | some s => exact hterminal s (hm key s hs)
  refine ⟨fun name s hs => ⟨?_, hnamed name s hs⟩, fun text => ?_, fun source => ?_⟩
  · rw [Grammar.nameSymbol, ← hnames, hs, Option.getD_some]
  · have heq : scope.literalSymbol text = g.literalSymbol text := by
      rw [literalSymbol, hliterals, hindexed.literals, Grammar.literalSymbol, hfind]
    refine ⟨heq, ?_⟩
    rw [← heq, literalSymbol, hliterals]
    exact hgetD ht.literals text
  · have heq : scope.patternSymbol source = g.patternSymbol source := by
      rw [patternSymbol, hpatterns, hindexed.patterns, Grammar.patternSymbol, htokens]
      refine congrArg (Option.getD · Symbol.error) (findPattern_congr fun token htoken => ?_).symm
      rw [← SymbolInfo.named_core, hcore _ (ht.tokens token htoken).2, SymbolInfo.named_core]
    refine ⟨heq, ?_⟩
    rw [← heq, patternSymbol, hpatterns]
    exact hgetD ht.patterns source

namespace Loading

variable {d : GrammarDef} {g : Grammar} (L : Loading d g) {rule : String × Rule × Symbol}

theorem terminals_indexed : L.terminals.Indexed := GrammarDef.indexed_terminals L.terminals_eq

theorem core_extras (i : Nat) : (L.extras.symbols.getD i SymbolInfo.error).core
    = (L.terminals.symbols.getD i SymbolInfo.error).core :=
  foldlM_induction (fun _ (e : Extras) => (e.symbols.getD i SymbolInfo.error).core
    = (L.terminals.symbols.getD i SymbolInfo.error).core) L.extras_eq rfl
    fun _ _ _ _ _ _ he hadd => (core_extrasAdd hadd i).trans he

theorem rulesNamed : RulesNamed
    (L.extras.symbols.push ⟨augmentedStartName, .auxiliary, false, false, false⟩) L.symbols
      L.terminals.names L.rules := by
  refine named_addNonterminals L.rules_eq (GrammarDef.nodup_of_startName L.startName_eq) fun name => ?_
  rw [findSymbol_push_of_false rfl, findSymbol_core (fun _ => rfl) L.size_extras L.core_extras,
    L.terminals_indexed.names]

theorem expandRules_spec : Expansion.Adds L.symbols.size { symbols := L.symbols } L.expansion ∧
    (∀ rule ∈ L.rules, ExpandsTo
      ⟨rule.1, rule.2.2, L.names, L.terminals.literals, L.terminals.patterns,
        sortedNames (L.rules.flatMap fun rule => rule.2.1.fieldNames)⟩
      rule.2.1 rule.2.2 L.expansion L.productions) ∧
    ∀ entry ∈ L.expansion.auxiliaries, ProducesExactly L.productions entry.1 entry.2 :=
  IncrementalLR.expandRules_spec L.rulesNamed.distinct
    (fun rule hrule => (L.rulesNamed.symbol rule hrule).1) L.productions_eq

theorem adds : Expansion.Adds L.symbols.size { symbols := L.symbols } L.expansion :=
  L.expandRules_spec.1

/-! The symbols found at the end are those that were found before. -/

theorem getElem?_names (name : String) :
    L.names[name]? = findSymbol (SymbolInfo.isNamed name) g.symbols := by
  rw [L.symbols_of, L.adds.find _ fun _ => rfl, ← L.rulesNamed.names]
  rfl

theorem findSymbol_isLiteral (text : String) : findSymbol (SymbolInfo.isLiteral text) g.symbols
    = findSymbol (SymbolInfo.isLiteral text) L.terminals.symbols := by
  rw [L.symbols_of, L.adds.find _ fun _ => rfl, L.rulesNamed.literals, findSymbol_push_of_false rfl,
    findSymbol_core (fun _ => rfl) L.size_extras L.core_extras]

theorem getD_symbols {i : Nat} (hi : i < L.terminals.symbols.size) :
    g.symbols.getD i SymbolInfo.error = L.extras.symbols.getD i SymbolInfo.error := by
  have hlt : i < L.extras.symbols.size := L.size_extras ▸ hi
  rw [L.symbols_of, getD_of_grows (L.rulesNumbered.grows.trans L.adds.grows), getD_push_of_lt hlt]
  rw [Array.size_push]
  exact Nat.lt_succ_of_lt hlt

theorem core_symbols {i : Nat} (hi : i < L.terminals.symbols.size) :
    (g.symbols.getD i SymbolInfo.error).core
      = (L.terminals.symbols.getD i SymbolInfo.error).core := by
  rw [L.getD_symbols hi, L.core_extras]

theorem nameSymbol_eq (hrule : rule ∈ L.rules) : g.nameSymbol rule.1 = rule.2.2 := by
  rw [Grammar.nameSymbol, L.symbols_of, L.adds.find _ fun _ => rfl,
    (L.rulesNamed.symbol rule hrule).2, Option.getD_some]

theorem mapsTo_names_not_isAuxiliary : MapsTo L.names fun s => ¬ g.IsAuxiliary s := by
  refine mapsTo_namesOf (L.terminals_wellFormed.names.mono
    (L.terminals_indexed.not_isAuxiliary fun _ => L.core_symbols)) fun rule hrule => ?_
  obtain ⟨_, _, _, info, hinfo, hkind⟩ := L.rulesNumbered.of_mem rule hrule
  refine Grammar.not_isAuxiliary_of_kind fun haux => ?_
  rw [L.symbols_of, Array.getD_eq_getD_getElem?, getElem?_of_toList_isPrefix L.adds.grows hinfo,
    Option.getD_some, hkind] at haux
  cases haux

/-- The productions of a symbol behind that of the start production. -/
theorem produces_iff {s : Symbol} (hlow : L.augmented.index < s.index) {alts : List Alternative}
    (h : ProducesExactly L.productions s alts) (rhs : List Symbol) :
    g.Produces s rhs ↔ rhs ∈ alts.map Alternative.symbols := by
  refine h.produces L.productions_of ?_ rhs
  rintro rfl
  exact Nat.lt_irrefl _ hlow

theorem records : g.Records L.expansion := by
  intro entry hentry
  have hnumbered : L.expansion.Numbered L.symbols.size :=
    L.adds.numbered ⟨Nat.le_refl _, by simp, .nil⟩
  obtain ⟨hlow, info, hinfo, hkind⟩ := hnumbered.auxiliary entry hentry
  exact ⟨L.wellFormed.isAuxiliary_of_kind (L.symbols_of ▸ hinfo) hkind,
    L.produces_iff (Nat.lt_of_lt_of_le L.augmented_lt hlow) (L.expandRules_spec.2.2 entry hentry)⟩

end Loading

namespace Grammar

variable {d : GrammarDef} {g : Grammar}

/-- A rule expands in a scope that leads to the symbols of the grammar, and the grammar has the
alternatives. -/
theorem exists_expand_of_load (h : Grammar.load d = .ok g) {name : String} {body : Rule}
    (hrule : (name, body) ∈ d.rules) (hsyntactic : body.isLexical = false) :
    ∃ scope : ExpansionScope, scope.rule = name ∧ scope.Resolves g ∧
      ∃ e e' alts, expand scope body e = .ok (alts, e') ∧ g.Records e' ∧
        ∀ rhs, g.Produces (g.nameSymbol name) rhs ↔ rhs ∈ alts.map Alternative.symbols := by
  obtain ⟨L⟩ := exists_loading h
  obtain ⟨s, hs⟩ := L.rulesNumbered.exists_mem _ hrule hsyntactic
  obtain ⟨e, e', alts, hexpand, hsuffix, halts⟩ := L.expandRules_spec.2.1 _ hs
  refine ⟨_, rfl, ?_, e, e', alts, hexpand, L.records.mono hsuffix, ?_⟩
  · exact ExpansionScope.resolves_of_terminals L.terminals_wellFormed L.terminals_indexed
      L.getElem?_names L.mapsTo_names_not_isAuxiliary rfl rfl L.tokens_of L.findSymbol_isLiteral
      fun _ => L.core_symbols
  · rw [L.nameSymbol_eq hs]
    exact L.produces_iff (L.augmented_lt_of_mem hs) halts

/-- The end of input is not flagged as an extra. -/
theorem extra_eof_of_load (h : Grammar.load d = .ok g) :
    (g.symbols.getD Symbol.eof.index SymbolInfo.error).extra = false := by
  obtain ⟨L⟩ := exists_loading h
  have ht := L.terminals_wellFormed
  have hpos : Symbol.eof.index < L.terminals.symbols.size := ht.pos
  rw [L.getD_symbols hpos]
  exact foldlM_induction
    (fun _ (e : Extras) => (e.symbols.getD Symbol.eof.index SymbolInfo.error).extra = false)
    L.extras_eq (L.terminals_indexed.plain _ hpos).2
    fun _ _ _ _ _ _ he hadd => (extra_eof_extrasAdd ht.names hadd).trans he

/-- The productions of a rule, with the auxiliary symbols in them unfolded, generate the strings
that its body stands for. -/
theorem generated_eq_language (h : Grammar.load d = .ok g) {name : String} {body : Rule}
    (hrule : (name, body) ∈ d.rules) (hsyntactic : body.isLexical = false)
    (hfree : body.hasOneOrMore = false) :
    g.generated (g.nameSymbol name) = body.language g name := by
  obtain ⟨scope, rfl, hscope, e, e', alts, hexpand, hrecords, hproduces⟩ :=
    exists_expand_of_load h hrule hsyntactic
  rw [generated_eq_unfoldings hproduces]
  exact alternatives_expand hscope body hfree hexpand hrecords

/-- With repetitions of one or more, the productions of a rule generate what its body expands to. -/
theorem generated_eq_expandedLanguage (h : Grammar.load d = .ok g) {name : String} {body : Rule}
    (hrule : (name, body) ∈ d.rules) (hsyntactic : body.isLexical = false) :
    g.generated (g.nameSymbol name) = body.expandedLanguage g := by
  obtain ⟨scope, _, hscope, e, e', alts, hexpand, hrecords, hproduces⟩ :=
    exists_expand_of_load h hrule hsyntactic
  rw [generated_eq_unfoldings hproduces]
  exact ((expands_of_expand body hexpand).amountsTo hscope hrecords).eq

/-- One or more of a body generate the strings of the body followed by any number of it, but for the
empty string: that one is only generated when there is no other. -/
theorem mem_generated_oneOrMore_iff (h : Grammar.load d = .ok g) {one more : String} {body : Rule}
    (hone : (one, .oneOrMore body) ∈ d.rules)
    (hmore : (more, .seq [body, .zeroOrMore body]) ∈ d.rules) :
    (∀ w ≠ [], w ∈ g.generated (g.nameSymbol one) ↔ w ∈ g.generated (g.nameSymbol more)) ∧
      ([] ∈ g.generated (g.nameSymbol one) ↔ ∀ w ∈ g.generated (g.nameSymbol more), w = []) := by
  rw [generated_eq_expandedLanguage h hone rfl, generated_eq_expandedLanguage h hmore rfl]
  simp only [Rule.expandedLanguage, Rule.expandedLanguageSeq, mul_one]
  constructor
  · intro w hw
    exact mem_oneOrMoreOf_iff hw
  · exact nil_mem_oneOrMoreOf_iff

end Grammar

/-! ### A repeated token -/

section RepeatedToken

open scoped Computability

def GrammarDef.repeatedToken : GrammarDef :=
  { name := "repeated", rules := [("s", .zeroOrMore (.optional (.pattern "x")))], extras := some [] }

def Grammar.repeatedToken : Grammar :=
  { name := "repeated"
    symbols := #[⟨"end", .terminal, false, false, false⟩,
      ⟨"s_token1", .terminal, false, false, false⟩, ⟨"start'", .auxiliary, false, false, false⟩,
      ⟨"s", .nonterminal, true, true, false⟩, ⟨"s_repeat1", .auxiliary, false, false, false⟩]
    terminalCount := 2
    start := ⟨3⟩
    productions := #[⟨⟨2⟩, #[{ symbol := ⟨3⟩ }], none, 0⟩, ⟨⟨3⟩, #[{ symbol := ⟨4⟩ }], none, 0⟩,
      ⟨⟨3⟩, #[], none, 0⟩, ⟨⟨4⟩, #[{ symbol := ⟨4⟩ }, { symbol := ⟨1⟩ }], none, 0⟩,
      ⟨⟨4⟩, #[{ symbol := ⟨1⟩ }], none, 0⟩]
    fields := #[]
    tokens := #[⟨⟨1⟩, "x", false⟩]
    skips := []
    extras := []
    externals := #[]
    word := none
    keywords := []
    conflicts := []
    tokenPrecedence := []
    auxOrigin := [(⟨4⟩, ⟨3⟩)]
    warnings := [] }

theorem load_repeatedToken : Grammar.load .repeatedToken = .ok .repeatedToken := by
  cbv

/-- A body that may be empty is repeated: the empty string is kept, but not repeated. -/
theorem generated_repeatedToken : Grammar.load .repeatedToken = .ok .repeatedToken ∧
    Grammar.repeatedToken.generated ⟨3⟩ = ({[⟨1⟩]} + 1)∗ := by
  have hname : Grammar.repeatedToken.nameSymbol "s" = ⟨3⟩ := by decide +kernel
  have hpattern : Grammar.repeatedToken.patternSymbol "x" = ⟨1⟩ := by decide +kernel
  have h := Grammar.generated_eq_language load_repeatedToken List.mem_cons_self rfl rfl
  rw [hname] at h
  refine ⟨load_repeatedToken, h.trans ?_⟩
  rw [Rule.language, Rule.language, Rule.language, hpattern]

/-- One or more of an optional token, and the same token followed by any number of it. -/
def GrammarDef.repeatedTwice : GrammarDef :=
  { name := "repeated"
    rules := [("one", .oneOrMore (.optional (.pattern "x"))),
      ("more", .seq [.optional (.pattern "x"), .zeroOrMore (.optional (.pattern "x"))])]
    extras := some [] }

def Grammar.repeatedTwice : Grammar :=
  { name := "repeated"
    symbols := #[⟨"end", .terminal, false, false, false⟩,
      ⟨"one_token1", .terminal, false, false, false⟩, ⟨"start'", .auxiliary, false, false, false⟩,
      ⟨"one", .nonterminal, true, true, false⟩, ⟨"more", .nonterminal, true, true, false⟩,
      ⟨"one_repeat1", .auxiliary, false, false, false⟩,
      ⟨"more_repeat1", .auxiliary, false, false, false⟩]
    terminalCount := 2
    start := ⟨3⟩
    productions := #[⟨⟨2⟩, #[{ symbol := ⟨3⟩ }], none, 0⟩, ⟨⟨3⟩, #[{ symbol := ⟨5⟩ }], none, 0⟩,
      ⟨⟨4⟩, #[{ symbol := ⟨1⟩ }, { symbol := ⟨6⟩ }], none, 0⟩, ⟨⟨4⟩, #[{ symbol := ⟨1⟩ }], none, 0⟩,
      ⟨⟨4⟩, #[{ symbol := ⟨6⟩ }], none, 0⟩, ⟨⟨4⟩, #[], none, 0⟩,
      ⟨⟨5⟩, #[{ symbol := ⟨5⟩ }, { symbol := ⟨1⟩ }], none, 0⟩, ⟨⟨5⟩, #[{ symbol := ⟨1⟩ }], none, 0⟩,
      ⟨⟨6⟩, #[{ symbol := ⟨6⟩ }, { symbol := ⟨1⟩ }], none, 0⟩, ⟨⟨6⟩, #[{ symbol := ⟨1⟩ }], none, 0⟩]
    fields := #[]
    tokens := #[⟨⟨1⟩, "x", false⟩]
    skips := []
    extras := []
    externals := #[]
    word := none
    keywords := []
    conflicts := []
    tokenPrecedence := []
    auxOrigin := [(⟨6⟩, ⟨4⟩), (⟨5⟩, ⟨3⟩)]
    warnings := [.unreachableRule "more"] }

theorem load_repeatedTwice : Grammar.load .repeatedTwice = .ok .repeatedTwice := by
  cbv

/-- The empty string is generated by a token that may be missing, but not by one or more of it. -/
theorem mem_generated_repeatedTwice : Grammar.load .repeatedTwice = .ok .repeatedTwice ∧
    (∀ w ≠ [], w ∈ Grammar.repeatedTwice.generated ⟨3⟩ ↔
      w ∈ Grammar.repeatedTwice.generated ⟨4⟩) ∧
    ([] ∈ Grammar.repeatedTwice.generated ⟨3⟩ ↔
      ∀ w ∈ Grammar.repeatedTwice.generated ⟨4⟩, w = []) := by
  have hone : Grammar.repeatedTwice.nameSymbol "one" = ⟨3⟩ := by decide +kernel
  have hmore : Grammar.repeatedTwice.nameSymbol "more" = ⟨4⟩ := by decide +kernel
  have h := Grammar.mem_generated_oneOrMore_iff load_repeatedTwice List.mem_cons_self
    (List.mem_cons_of_mem _ List.mem_cons_self)
  rw [hone, hmore] at h
  exact ⟨load_repeatedTwice, h⟩

end RepeatedToken

end IncrementalLR
