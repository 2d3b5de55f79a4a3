import IncrementalLR.Grammar.Load
import IncrementalLR.Proofs.Grammar.Expands

/-!
# The stages of loading

Each stage of loading is taken apart once. A stage that goes over the rules comes with an induction
principle: what holds of the rules done so far is kept by every rule. `Loading` holds what every stage
has made of a definition that has been loaded.
-/

namespace IncrementalLR

/-! ### Extras -/

/-- What adding an extra changes: a token is flagged, or one more pattern is passed over. -/
inductive AddsExtra (names : Std.HashMap String Symbol) (e : Extras) : Extras → Prop where
  | token {name : String} {s : Symbol} (hname : names[name]? = some s) :
      AddsExtra names e
        { e with
          symbols := e.symbols.modify s.index fun info => { info with extra := true }
          named := e.named ++ [s] }
  | skip (source : String) : AddsExtra names e { e with skips := e.skips ++ [source] }

theorem Extras.add_spec {ruleNames : List String} {names : Std.HashMap String Symbol}
    {e e' : Extras} {rule : Rule} (h : Extras.add ruleNames names e rule = .ok e') :
    AddsExtra names e e' := by
  cases rule with
  | symbol name =>
      rw [Extras.add] at h
      cases hname : names[name]? with
      | none =>
          rw [hname] at h
          simp only [] at h
          split at h <;> cases h
      | some s =>
          rw [hname] at h
          cases h
          exact .token hname
  | token body =>
      obtain ⟨source, _, h⟩ := exists_of_bind_eq_ok h
      cases h
      exact .skip source
  | _ =>
      cases h
      try exact .skip _

/-! ### Rules -/

/-- What holds of the rules numbered so far holds of all rules in the end. -/
theorem addNonterminals_induction {symbols symbols' : Array SymbolInfo}
    {rules : List (String × Rule)} {found : List (String × Rule × Symbol)}
    (P : List (String × Rule) → Array SymbolInfo → List (String × Rule × Symbol) → Prop)
    (h : addNonterminals symbols rules = .ok (symbols', found)) (hinit : P [] symbols [])
    (hlexical : ∀ done name body rest symbols found, rules = done ++ (name, body) :: rest →
      body.isLexical = true → P done symbols found → P (done ++ [(name, body)]) symbols found)
    (hadd : ∀ done name body rest symbols found s, rules = done ++ (name, body) :: rest →
      body.isLexical = false → symbols.size < 65535 → s.index = symbols.size → P done symbols found →
      P (done ++ [(name, body)])
        (symbols.push ⟨name, .nonterminal, Terminals.isVisibleName name, true, false⟩)
        (found ++ [(name, body, s)])) : P rules symbols' found := by
  refine foldlM_induction (fun done (state : Array SymbolInfo × List (String × Rule × Symbol)) =>
    P done state.1 state.2) h hinit ?_
  rintro done ⟨name, body⟩ rest ⟨symbols₁, found₁⟩ state' heq hdone hstep
  simp only at hstep hdone
  split at hstep
  · rename_i hlex
    cases hstep
    exact hlexical done name body rest symbols₁ found₁ heq hlex hdone
  · rename_i hlex
    obtain ⟨⟨s, symbols₂⟩, hsymbol, hstep⟩ := exists_of_bind_eq_ok hstep
    obtain ⟨hsize, hindex, rfl⟩ := addSymbol_eq_ok hsymbol
    cases hstep
    exact hadd done name body rest symbols₁ found₁ s heq (eq_false_of_ne_true hlex) hsize hindex hdone

/-- What holds of the rules expanded so far and their productions holds of all rules in the end.
Behind the productions of the rules stand those of the auxiliary symbols. -/
theorem expandRules_induction {scopeOf : String → Symbol → ExpansionScope}
    {symbols : Array SymbolInfo} {rules : List (String × Rule × Symbol)} {expansion : Expansion}
    {productions : List Production}
    (P : List (String × Rule × Symbol) → Expansion → List Production → Prop)
    (h : expandRules scopeOf symbols rules = .ok (expansion, productions))
    (hinit : P [] { symbols := symbols } [])
    (hstep : ∀ done name body s rest e e' alts ps, rules = done ++ (name, body, s) :: rest →
      Expands (scopeOf name s) body { e with repeatCount := 0 } alts e' →
      Alternative.distinct alts ≠ [] → P done e ps →
      P (done ++ [(name, body, s)]) e'
        (ps ++ (Alternative.distinct alts).map (·.toProduction s))) :
    ∃ ps, P rules expansion ps ∧
      productions = ps ++ expansion.auxiliaries.reverse.flatMap fun entry =>
        (Alternative.distinct entry.2).map (·.toProduction entry.1) := by
  rw [expandRules] at h
  obtain ⟨⟨final, found⟩, hfold, h⟩ := exists_of_bind_eq_ok h
  cases h
  refine ⟨_, ?_, rfl⟩
  refine foldlM_induction (fun done (state : Expansion × List (List Production)) =>
    P done state.1 state.2.reverse.flatten) hfold hinit ?_
  rintro done ⟨name, body, s⟩ rest ⟨e, found⟩ state' heq hdone hfold
  simp only at hfold hdone
  obtain ⟨⟨alts, e'⟩, hexpand, hfold⟩ := exists_of_bind_eq_ok hfold
  split at hfold
  · cases hfold
  · rename_i hne
    cases hfold
    simp only [List.reverse_cons, List.flatten_append, List.flatten_singleton]
    exact hstep done name body s rest e e' alts _ heq (expands_of_expand body hexpand)
      (hne ∘ List.isEmpty_iff.2) hdone

/-! ### Definitions -/

/-- The names with those of the rules. -/
def namesOf (names : Std.HashMap String Symbol) (found : List (String × Rule × Symbol)) :
    Std.HashMap String Symbol :=
  found.foldl (fun m rule => m.insert rule.1 rule.2.2) names

/-- What the stages of loading have made, in their order. -/
structure Loading (d : GrammarDef) (g : Grammar) where
  startName : String
  terminals : Terminals
  externals : List Symbol
  extras : Extras
  augmented : Symbol
  /-- the symbols up to those of the rules -/
  symbols : Array SymbolInfo
  rules : List (String × Rule × Symbol)
  expansion : Expansion
  productions : List Production
  startName_eq : d.startName = .ok startName
  terminals_eq : d.terminals = .ok (terminals, externals)
  extras_eq : (d.extras.getD defaultExtras).foldlM (Extras.add d.ruleNames terminals.names)
    { symbols := terminals.symbols } = .ok extras
  extras_lt : extras.symbols.size < 65535
  augmented_index : augmented.index = extras.symbols.size
  rules_eq : addNonterminals
    (extras.symbols.push ⟨augmentedStartName, .auxiliary, false, false, false⟩) d.rules
      = .ok (symbols, rules)
  productions_eq : expandRules (fun rule s => ⟨rule, s, namesOf terminals.names rules,
    terminals.literals, terminals.patterns,
      sortedNames (rules.flatMap fun rule => rule.2.1.fieldNames)⟩) symbols rules
        = .ok (expansion, productions)
  patterns_eq : checkPatterns g.symbols g.tokens g.skips = .ok ()
  keywords_eq : findKeywords terminals (namesOf terminals.names rules) d.word
    = .ok (g.word, g.keywords)
  conflicts_eq : d.conflicts.mapM (conflictSet g.terminalCount (namesOf terminals.names rules))
    = .ok g.conflicts
  precedence_eq : tokenPrecedences g.terminalCount terminals (namesOf terminals.names rules)
    d.precedences = .ok g.tokenPrecedence
  symbols_of : g.symbols = expansion.symbols
  terminalCount_of : g.terminalCount = terminals.symbols.size
  start_of : g.start = ((namesOf terminals.names rules)[startName]?).getD Symbol.error
  productions_of : g.productions.toList
    = { lhs := augmented, steps := #[{ symbol := g.start }] } :: productions
  fields_of : g.fields = (sortedNames (rules.flatMap fun rule => rule.2.1.fieldNames)).toArray
  tokens_of : g.tokens = terminals.tokens
  skips_of : g.skips = extras.skips
  extras_of : g.extras = extras.named
  externals_of : g.externals = externals.toArray
  auxOrigin_of : g.auxOrigin = expansion.auxOrigin
  warnings_of : g.warnings = unreachableRules g.symbols.size
    (d.rules.map fun rule => (rule.1, ((namesOf terminals.names rules)[rule.1]?).getD Symbol.error))
    g.productions.toList g.start g.extras

theorem exists_loading {d : GrammarDef} {g : Grammar} (h : Grammar.load d = .ok g) :
    Nonempty (Loading d g) := by
  rw [Grammar.load] at h
  obtain ⟨startName, hstart, h⟩ := exists_of_bind_eq_ok h
  obtain ⟨⟨t, externals⟩, hterminals, h⟩ := exists_of_bind_eq_ok h
  obtain ⟨extras, hextras, h⟩ := exists_of_bind_eq_ok h
  obtain ⟨⟨augmented, symbols⟩, haugmented, h⟩ := exists_of_bind_eq_ok h
  obtain ⟨⟨symbols', rules⟩, hrules, h⟩ := exists_of_bind_eq_ok h
  obtain ⟨⟨expansion, productions⟩, hexpand, h⟩ := exists_of_bind_eq_ok h
  obtain ⟨_, hpatterns, h⟩ := exists_of_bind_eq_ok h
  obtain ⟨⟨word, keywords⟩, hkeywords, h⟩ := exists_of_bind_eq_ok h
  obtain ⟨conflicts, hconflicts, h⟩ := exists_of_bind_eq_ok h
  obtain ⟨precedence, hprecedence, h⟩ := exists_of_bind_eq_ok h
  cases h
  obtain ⟨hlt, hindex, rfl⟩ := addSymbol_eq_ok haugmented
  exact ⟨⟨startName, t, externals, extras, augmented, symbols', rules, expansion, productions, hstart,
    hterminals, hextras, hlt, hindex, hrules, hexpand, hpatterns, hkeywords, hconflicts, hprecedence,
    rfl, rfl, rfl, List.toList_toArray, rfl, rfl, rfl, rfl, rfl, rfl, rfl⟩⟩

end IncrementalLR
