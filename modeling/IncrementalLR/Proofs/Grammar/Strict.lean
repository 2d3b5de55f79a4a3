import IncrementalLR.Proofs.Grammar.References
import IncrementalLR.Proofs.Grammar.RuleLanguage

/-!
# Loading without defaults

Loading has a default for every lookup, so that nothing stops it where a name, a text or a number is
missing. Here are the stages with lookups once more, without defaults: a lookup that finds nothing
ends loading with no error to tell. Both ways of loading come to the same for every definition, also
for one that does not load, so that no default is ever used.
-/

namespace IncrementalLR

/-- A computation that ends where a lookup finds nothing; this has no error of its own. -/
abbrev Strict := Except (Option Malformed)

namespace Strict

variable {α β σ : Type}

/-- What is looked up has to be there. -/
def found : Option α → Strict α
  | some a => .ok a
  | none => .error none

/-- A computation that looks nothing up, or has a default for what it looks up. -/
def ofExcept (x : Except Malformed α) : Strict α := x.mapError some

theorem found_eq {x : Option α} {a : α} (h : x = some a) : found x = .ok a := by
  rw [h, found]

/-! ### Steps that come to the same -/

theorem bind_eq {x : Except Malformed α} {x' : Strict α} {f : α → Except Malformed β}
    {f' : α → Strict β} (hx : x' = ofExcept x) (hf : ∀ a, x = .ok a → f' a = ofExcept (f a)) :
    (x' >>= f') = ofExcept (x >>= f) := by
  cases x with
  | error cause =>
      rw [hx]
      rfl
  | ok a =>
      rw [hx]
      exact hf a rfl

theorem found_bind_eq {x : Option α} {a : α} {f' : α → Strict β} {y : Strict β} (h : x = some a)
    (hf : f' a = y) : (found x >>= f') = y := by
  rw [found_eq h]
  exact hf

theorem runBind_eq {x : StateT σ (Except Malformed) α} {x' : StateT σ Strict α}
    {f : α → StateT σ (Except Malformed) β} {f' : α → StateT σ Strict β} {s : σ}
    (hx : x' s = ofExcept (x s)) (hf : ∀ a t, f' a t = ofExcept (f a t)) :
    (x' >>= f') s = ofExcept ((x >>= f) s) :=
  bind_eq hx fun found _ => hf found.1 found.2

/-- A fold over items keeps an invariant, and every step under it comes to the same. -/
theorem foldlM_eq {f : β → α → Except Malformed β} {f' : β → α → Strict β} {items : List α}
    (P : β → Prop) (hstep : ∀ b, ∀ a ∈ items, P b → f' b a = ofExcept (f b a))
    (hkeep : ∀ b a b', P b → f b a = .ok b' → P b') {b : β} (hb : P b) :
    items.foldlM f' b = ofExcept (items.foldlM f b) := by
  induction items generalizing b with
  | nil => rfl
  | cons a items ih =>
      rw [List.foldlM_cons, List.foldlM_cons]
      refine bind_eq (hstep b a List.mem_cons_self hb) fun next hnext => ?_
      exact ih (fun b a ha => hstep b a (List.mem_cons_of_mem _ ha)) (hkeep b a next hb hnext)

theorem forIn_eq {f : α → β → Except Malformed (ForInStep β)} {f' : α → β → Strict (ForInStep β)}
    {items : List α} (h : ∀ a ∈ items, ∀ b, f' a b = ofExcept (f a b)) (b : β) :
    forIn items b f' = ofExcept (forIn items b f) := by
  induction items generalizing b with
  | nil => rfl
  | cons a items ih =>
      rw [List.forIn_cons, List.forIn_cons]
      refine bind_eq (h a List.mem_cons_self b) fun step _ => ?_
      cases step with
      | done b => rfl
      | yield b => exact ih (fun a ha => h a (List.mem_cons_of_mem _ ha)) b

theorem mapM_eq {f : α → β} {f' : α → Strict β} {items : List α}
    (h : ∀ a ∈ items, f' a = .ok (f a)) : items.mapM f' = .ok (items.map f) := by
  induction items with
  | nil => rfl
  | cons a items ih =>
      rw [List.mapM_cons, h a List.mem_cons_self, ih fun a ha => h a (List.mem_cons_of_mem _ ha)]
      rfl

/-! ### Extras -/

theorem set!_eq_modify {xs : Array α} {i : Nat} (hi : i < xs.size) (f : α → α) (d : α) :
    xs.set! i (f (xs.getD i d)) = xs.modify i f := by
  apply Array.ext_getElem?
  intro j
  rw [Array.set!_eq_setIfInBounds, Array.getElem?_setIfInBounds, Array.getElem?_modify]
  by_cases hij : i = j
  · rw [if_pos hij, if_pos hij, if_pos hi, ← hij, getElem?_eq_some_getD hi d, Option.map_some]
  · rw [if_neg hij, if_neg hij]

def addExtra (ruleNames : List String) (names : Std.HashMap String Symbol) (e : Extras) :
    Rule → Strict Extras
  | .symbol name => do
    if let some symbol := names[name]? then
      let info ← found e.symbols[symbol.index]?
      return { e with
        symbols := e.symbols.set! symbol.index { info with extra := true }
        named := e.named ++ [symbol] }
    else ofExcept (e.add ruleNames names (.symbol name))
  | other => ofExcept (e.add ruleNames names other)

theorem addExtra_eq {ruleNames : List String} {names : Std.HashMap String Symbol} {e : Extras}
    (h : MapsTo names fun s => s.index < e.symbols.size) (rule : Rule) :
    addExtra ruleNames names e rule = ofExcept (e.add ruleNames names rule) := by
  cases rule with
  | symbol name =>
      rw [addExtra]
      cases hname : names[name]? with
      | none => rfl
      | some s =>
          have hs := h name s hname
          refine found_bind_eq (getElem?_eq_some_getD hs SymbolInfo.error) ?_
          rw [Extras.add, hname]
          refine congrArg (fun symbols => Except.ok { e with symbols, named := e.named ++ [s] }) ?_
          exact set!_eq_modify hs (fun info => { info with extra := true }) SymbolInfo.error
  | _ => rfl

/-! ### Rules -/

def repetition (scope : ExpansionScope) (alts : List Alternative) :
    StateT Expansion Strict (Option Symbol) :=
  fun e => ofExcept (addRepetition scope alts e)

mutual

def expand (scope : ExpansionScope) : Rule → StateT Expansion Strict (List Alternative)
  | .blank => return [{}]
  | .literal text => do return [.single (← found scope.literals[text]?)]
  | .pattern source => do return [.single (← found scope.patterns[source]?)]
  | .token (.literal text) => do return [.single (← found scope.literals[text]?)]
  | .token body => do
    let source ← ofExcept (tokenSource scope.rule body)
    return [.single (← found scope.patterns[source]?)]
  | .symbol name =>
    match scope.names[name]? with
    | some symbol => return [.single symbol]
    | none => throw (some (.undefinedSymbol scope.rule name))
  | .seq items => expandSeq scope [{}] items
  | .choice items => expandChoice scope items
  | .optional body => do return (← expand scope body) ++ [{}]
  | .oneOrMore body => do
    match ← repetition scope (← expand scope body) with
    | some symbol => return [.single symbol]
    | none => return [{}]
  | .zeroOrMore body => do
    match ← repetition scope (← expand scope body) with
    | some symbol => return [.single symbol, {}]
    | none => return [{}]
  | .ranked value assoc body => do return (← expand scope body).map (.rank ⟨value, assoc⟩)
  | .weighted value body => do return (← expand scope body).map (.weigh value)
  | .field name body => do
    let field ← found (scope.fields.idxOf? name)
    return (← expand scope body).map (.label ⟨field.toUInt16⟩)

def expandSeq (scope : ExpansionScope) (before : List Alternative) :
    List Rule → StateT Expansion Strict (List Alternative)
  | [] => return before
  | item :: items => do
    let alts ← expand scope item
    expandSeq scope (Alternative.product before alts) items

def expandChoice (scope : ExpansionScope) : List Rule → StateT Expansion Strict (List Alternative)
  | [] => return []
  | item :: items => do
    let alts ← expand scope item
    return alts ++ (← expandChoice scope items)

end

/-- What a rule looks up is in scope. -/
structure Covers (scope : ExpansionScope) (rule : Rule) : Prop where
  tokens : rule.TokensIn scope.rule scope.literals scope.patterns
  fields : ∀ name ∈ rule.fieldNames, name ∈ scope.fields

structure CoversAll (scope : ExpansionScope) (items : List Rule) : Prop where
  tokens : Rule.TokensInAll scope.rule scope.literals scope.patterns items
  fields : ∀ name ∈ Rule.fieldNamesAll items, name ∈ scope.fields

section Expand

variable {scope : ExpansionScope}

theorem CoversAll.head {item : Rule} {items : List Rule} (h : CoversAll scope (item :: items)) :
    Covers scope item :=
  ⟨h.tokens.1, fun name hname => h.fields name (List.mem_append_left _ hname)⟩

theorem CoversAll.tail {item : Rule} {items : List Rule} (h : CoversAll scope (item :: items)) :
    CoversAll scope items :=
  ⟨h.tokens.2, fun name hname => h.fields name (List.mem_append_right _ hname)⟩

/-- The symbol that is found is the one that is taken where there is a default. -/
theorem found_symbol_eq {m : Std.HashMap String Symbol} {key : String} (h : key ∈ m) (e : Expansion) :
    (do return [Alternative.single (← found m[key]?)] : StateT Expansion Strict _) e
      = .ok ([.single ((m[key]?).getD Symbol.error)], e) := by
  obtain ⟨s, hs⟩ := Option.isSome_iff_exists.1 (Std.HashMap.isSome_getElem?_iff_mem.2 h)
  rw [hs]
  rfl

theorem found_field_eq {fields : List String} {name : String} (h : name ∈ fields) :
    found (fields.idxOf? name) = .ok (fields.idxOf name) := by
  obtain ⟨i, hi⟩ := Option.isSome_iff_exists.1 (List.isSome_idxOf?.2 h)
  rw [List.idxOf_eq_getD_idxOf?, hi, Option.getD_some, found]

mutual

theorem expand_eq (e : Expansion) : (rule : Rule) → Covers scope rule →
    expand scope rule e = ofExcept (IncrementalLR.expand scope rule e)
  | .blank, _ => rfl
  | .literal text, h => found_symbol_eq h.tokens e
  | .pattern source, h => found_symbol_eq h.tokens e
  | .token body, h => by
      have hpattern : (∀ source, tokenSource scope.rule body = .ok source → source ∈ scope.patterns) →
          (do
            let source ← ofExcept (tokenSource scope.rule body)
            return [Alternative.single (← found scope.patterns[source]?)] :
              StateT Expansion Strict (List Alternative)) e
            = ofExcept ((do return [Alternative.single (scope.patternSymbol
                (← liftM (tokenSource scope.rule body)))] : Expand (List Alternative)) e) := by
        intro hsources
        refine bind_eq ?_ fun found hfound => ?_
        · cases tokenSource scope.rule body <;> rfl
        · obtain ⟨source, hsource, heq⟩ := exists_of_bind_eq_ok hfound
          cases heq
          exact found_symbol_eq (hsources source hsource) e
      cases body with
      | literal text => exact found_symbol_eq h.tokens e
      | _ => exact hpattern h.tokens
  | .symbol name, _ => by
      rw [expand, IncrementalLR.expand]
      cases scope.names[name]? <;> rfl
  | .seq items, h => expandSeq_eq e [{}] items ⟨h.tokens, h.fields⟩
  | .choice items, h => expandChoice_eq e items ⟨h.tokens, h.fields⟩
  | .optional body, h => by
      rw [expand, IncrementalLR.expand]
      exact runBind_eq (expand_eq e body ⟨h.tokens, h.fields⟩) fun _ _ => rfl
  | .oneOrMore body, h => by
      rw [expand, IncrementalLR.expand]
      refine runBind_eq (expand_eq e body ⟨h.tokens, h.fields⟩) fun alts e₁ => ?_
      refine runBind_eq rfl fun symbol _ => ?_
      cases symbol <;> rfl
  | .zeroOrMore body, h => by
      rw [expand, IncrementalLR.expand]
      refine runBind_eq (expand_eq e body ⟨h.tokens, h.fields⟩) fun alts e₁ => ?_
      refine runBind_eq rfl fun symbol _ => ?_
      cases symbol <;> rfl
  | .ranked _ _ body, h => by
      rw [expand, IncrementalLR.expand]
      exact runBind_eq (expand_eq e body ⟨h.tokens, h.fields⟩) fun _ _ => rfl
  | .weighted _ body, h => by
      rw [expand, IncrementalLR.expand]
      exact runBind_eq (expand_eq e body ⟨h.tokens, h.fields⟩) fun _ _ => rfl
  | .field name body, h => by
      rw [expand, IncrementalLR.expand]
      rw [found_field_eq (h.fields name List.mem_cons_self)]
      change (expand scope body >>= fun alts =>
        pure (alts.map (Alternative.label (scope.fieldId name)))) e = _
      exact runBind_eq (expand_eq e body ⟨h.tokens, fun other hother =>
        h.fields other (List.mem_cons_of_mem name hother)⟩) fun _ _ => rfl

theorem expandSeq_eq (e : Expansion) (before : List Alternative) : (items : List Rule) →
    CoversAll scope items →
    expandSeq scope before items e = ofExcept (IncrementalLR.expandSeq scope before items e)
  | [], _ => rfl
  | item :: items, h => by
      rw [expandSeq, IncrementalLR.expandSeq]
      exact runBind_eq (expand_eq e item h.head) fun alts e₁ => expandSeq_eq e₁ _ items h.tail

theorem expandChoice_eq (e : Expansion) : (items : List Rule) → CoversAll scope items →
    expandChoice scope items e = ofExcept (IncrementalLR.expandChoice scope items e)
  | [], _ => rfl
  | item :: items, h => by
      rw [expandChoice, IncrementalLR.expandChoice]
      refine runBind_eq (expand_eq e item h.head) fun alts e₁ => ?_
      exact runBind_eq (expandChoice_eq e₁ items h.tail) fun _ _ => rfl

end

end Expand

def expandRules (scopeOf : String → Symbol → ExpansionScope) (symbols : Array SymbolInfo)
    (rules : List (String × Rule × Symbol)) : Strict (Expansion × List Production) := do
  let (expansion, productions) ← rules.foldlM
    (fun ((expansion, productions) : Expansion × List (List Production)) (name, body, symbol) => do
      let (alts, expansion) ←
        (expand (scopeOf name symbol) body).run { expansion with repeatCount := 0 }
      let alts := Alternative.distinct alts
      if alts.isEmpty then throw (some (.emptyRule name))
      return (expansion, alts.map (·.toProduction symbol) :: productions))
    ({ symbols := symbols }, [])
  let auxiliary := expansion.auxiliaries.reverse.flatMap fun (symbol, alts) =>
    (Alternative.distinct alts).map (·.toProduction symbol)
  return (expansion, productions.reverse.flatten ++ auxiliary)

theorem expandRules_eq {scopeOf : String → Symbol → ExpansionScope} {symbols : Array SymbolInfo}
    {rules : List (String × Rule × Symbol)}
    (h : ∀ rule ∈ rules, Covers (scopeOf rule.1 rule.2.2) rule.2.1) :
    expandRules scopeOf symbols rules
      = ofExcept (IncrementalLR.expandRules scopeOf symbols rules) := by
  refine bind_eq (foldlM_eq (fun _ => True) ?_ (fun _ _ _ _ _ => trivial) trivial) fun _ _ => rfl
  rintro ⟨expansion, productions⟩ ⟨name, body, symbol⟩ hrule -
  refine bind_eq (expand_eq _ body (h _ hrule)) fun found _ => ?_
  obtain ⟨alts, expansion'⟩ := found
  simp only
  split <;> rfl

/-! ### Patterns -/

def checkPatterns (symbols : Array SymbolInfo) (tokens : Array TokenDef) (skips : List String) :
    Strict Unit := do
  for token in tokens do
    let name := (← found symbols[token.symbol.index]?).name
    match Pattern.wholeText token.pattern with
    | .error cause => throw (some (.invalidPattern name cause.message))
    | .ok automaton => if Pattern.contains automaton [] then throw (some (.emptyToken name))
  for skip in skips do
    if let .error cause := Pattern.wholeText skip then
      throw (some (.invalidPattern "extras" cause.message))

theorem checkPatterns_eq {symbols : Array SymbolInfo} {tokens : Array TokenDef} {skips : List String}
    (h : ∀ token ∈ tokens, token.symbol.index < symbols.size) :
    checkPatterns symbols tokens skips
      = ofExcept (IncrementalLR.checkPatterns symbols tokens skips) := by
  rw [checkPatterns, IncrementalLR.checkPatterns, ← Array.forIn_toList, ← Array.forIn_toList]
  refine bind_eq (forIn_eq (fun token htoken _ => ?_) _) fun _ _ => ?_
  · refine found_bind_eq
      (getElem?_eq_some_getD (h token (Array.mem_toList_iff.1 htoken)) SymbolInfo.error) ?_
    simp only
    cases Pattern.wholeText token.pattern with
    | error cause => rfl
    | ok automaton =>
        simp only
        split <;> rfl
  · refine bind_eq (forIn_eq (fun skip _ _ => ?_) _) fun _ _ => rfl
    cases Pattern.wholeText skip <;> rfl

/-! ### Definitions -/

/-- Checks and expands a definition; every lookup has to find something. -/
def load (d : GrammarDef) : Strict Grammar := do
  let startName ← ofExcept d.startName
  let (t, externals) ← ofExcept d.terminals
  let extras ← (d.extras.getD defaultExtras).foldlM (addExtra d.ruleNames t.names)
    { symbols := t.symbols }
  let (augmented, symbols) ← ofExcept
    (addSymbol extras.symbols ⟨augmentedStartName, .auxiliary, false, false, false⟩)
  let (symbols, rules) ← ofExcept (addNonterminals symbols d.rules)
  let names := namesOf t.names rules
  let start ← found names[startName]?
  let fields := sortedNames (rules.flatMap fun (_, body, _) => body.fieldNames)
  let (expansion, productions) ← expandRules
    (fun rule s => ⟨rule, s, names, t.literals, t.patterns, fields⟩) symbols rules
  let productions := { lhs := augmented, steps := #[{ symbol := start }] } :: productions
  checkPatterns expansion.symbols t.tokens extras.skips
  let (word, keywords) ← ofExcept (findKeywords t names d.word)
  let conflicts ← ofExcept (d.conflicts.mapM (conflictSet t.symbols.size names))
  let precedence ← ofExcept (tokenPrecedences t.symbols.size t names d.precedences)
  let ruleSymbols ← d.ruleNames.mapM fun name => do return (name, ← found names[name]?)
  return {
    name := d.name
    symbols := expansion.symbols
    terminalCount := t.symbols.size
    start := start
    productions := productions.toArray
    fields := fields.toArray
    tokens := t.tokens
    skips := extras.skips
    extras := extras.named
    externals := externals.toArray
    word := word
    keywords := keywords
    conflicts := conflicts
    tokenPrecedence := precedence
    auxOrigin := expansion.auxOrigin
    warnings := unreachableRules expansion.symbols.size ruleSymbols productions start extras.named }

theorem grows_expandRules {scopeOf : String → Symbol → ExpansionScope} {symbols : Array SymbolInfo}
    {rules : List (String × Rule × Symbol)} {expansion : Expansion} {productions : List Production}
    (h : IncrementalLR.expandRules scopeOf symbols rules = .ok (expansion, productions)) :
    symbols.toList <+: expansion.symbols.toList := by
  obtain ⟨ps, hgrows, _⟩ := expandRules_induction
    (fun _ e _ => symbols.toList <+: e.symbols.toList) h (List.prefix_refl _)
    fun _ name _ s _ _ _ _ _ _ hexpand _ hgrows =>
      hgrows.trans (hexpand.relates (carries_adds (scopeOf name s) 0)).grows
  exact hgrows

/-- Every lookup of loading finds something, whether the definition loads or not. -/
theorem load_eq (d : GrammarDef) : load d = ofExcept (Grammar.load d) := by
  rw [load, Grammar.load]
  refine bind_eq rfl fun startName hstart => ?_
  refine bind_eq rfl fun found hterminals => ?_
  obtain ⟨t, externals⟩ := found
  obtain ⟨ht, hlexical, hcovers, _⟩ := GrammarDef.terminals_eq_ok hterminals
  have hsize : ∀ (e : Extras) (rule : Rule) (e' : Extras), e.symbols.size = t.symbols.size →
      e.add d.ruleNames t.names rule = .ok e' → e'.symbols.size = t.symbols.size :=
    fun e rule e' he hadd => (Extras.add_eq_ok hadd).trans he
  refine bind_eq (foldlM_eq (fun e => e.symbols.size = t.symbols.size)
    (fun e rule _ he => addExtra_eq (ht.names.mono fun s hs => he ▸ hs.2) rule) hsize rfl)
    fun extras hextras => ?_
  refine bind_eq rfl fun found haugmented => ?_
  obtain ⟨augmented, symbols⟩ := found
  obtain ⟨hlt, hindex, rfl⟩ := addSymbol_eq_ok haugmented
  refine bind_eq rfl fun found hrules => ?_
  obtain ⟨symbols, rules⟩ := found
  have hnumbered := rulesNumbered_of_addNonterminals hrules (by
    rw [Array.size_push]
    exact hlt)
  have hnames : ∀ name ∈ d.ruleNames, (namesOf t.names rules)[name]?
      = some (((namesOf t.names rules)[name]?).getD Symbol.error) := by
    intro name hname
    obtain ⟨s, hs⟩ := Option.isSome_iff_exists.1 (Std.HashMap.isSome_getElem?_iff_mem.2
      (mem_namesOf_of_ruleNames hlexical hnumbered hname))
    rw [hs, Option.getD_some]
  refine found_bind_eq (hnames startName (GrammarDef.startName_eq_ok hstart)) ?_
  refine bind_eq (expandRules_eq fun rule hrule => ?_) fun found hexpand => ?_
  · obtain ⟨hmem, hlex, _⟩ := hnumbered.of_mem rule hrule
    refine ⟨hcovers _ hmem hlex, fun name hname => ?_⟩
    rw [sortedNames, List.mem_mergeSort, List.mem_eraseDups]
    exact List.mem_flatMap.2 ⟨rule, hrule, hname⟩
  obtain ⟨expansion, productions⟩ := found
  refine bind_eq (checkPatterns_eq fun token htoken => ?_) fun _ _ => ?_
  · have hgrows := (hnumbered.grows.trans (grows_expandRules hexpand)).length_le
    simp only [Array.length_toList, Array.size_push] at hgrows
    have hextras := foldlM_induction (fun _ (e : Extras) => e.symbols.size = t.symbols.size) hextras
      rfl fun _ rule _ e e' _ he hadd => hsize e rule e' he hadd
    have htoken := (ht.tokens token htoken).2
    omega
  refine bind_eq rfl fun found _ => ?_
  refine bind_eq rfl fun conflicts _ => ?_
  refine bind_eq rfl fun precedence _ => ?_
  obtain ⟨word, keywords⟩ := found
  have hsymbols : d.ruleNames.mapM (fun name => do return (name, ← found (namesOf t.names rules)[name]?))
      = .ok (d.ruleNames.map fun name => (name, ((namesOf t.names rules)[name]?).getD Symbol.error)) :=
    mapM_eq fun name hname => found_bind_eq (hnames name hname) rfl
  rw [hsymbols, GrammarDef.ruleNames, List.map_map]
  rfl

end Strict

end IncrementalLR
