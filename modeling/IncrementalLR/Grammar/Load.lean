import IncrementalLR.Grammar.Expansion
import IncrementalLR.Symbol.Set

/-!
# Loading a grammar

Checks a definition and turns it into a grammar. Symbols are numbered in the order: end of input,
lexical rules, tokens inside rules, external tokens, the augmented start symbol, the other rules,
and the auxiliary symbols of repetitions.
-/

namespace IncrementalLR

namespace GrammarDef

/-- The first name that occurs twice. -/
def duplicateName? : List String → List String → Option String
  | _, [] => none
  | seen, name :: names => if seen.contains name then some name else duplicateName? (name :: seen) names

def ruleNames (g : GrammarDef) : List String := g.rules.map (·.1)

/-- The name of the start rule, once the names in a definition are seen to be in order. -/
def startName (g : GrammarDef) : Except Malformed String := do
  let first ← match g.rules with
    | [] => .error .noRules
    | (name, _) :: _ => .ok name
  if let some name := duplicateName? [] g.ruleNames then throw (.duplicateRule name)
  if let some name := g.externals.find? g.ruleNames.contains then throw (.externalRedefined name)
  let name := g.start.getD first
  if g.ruleNames.contains name then return name else throw (.missingStartRule name)

/-- The terminals of a definition, and those of them that the external scanner finds. -/
def terminals (g : GrammarDef) : Except Malformed (Terminals × List Symbol) := do
  let t ← g.rules.foldlM (fun t (name, body) => t.addLexicalRule name body) Terminals.initial
  let t ← g.rules.foldlM (fun t (name, body) => t.addSyntacticRule name body) t
  g.externals.foldlM
    (fun (t, externals) name => do
      let (symbol, t) ← t.addExternal name
      return (t, externals ++ [symbol]))
    (t, ([] : List Symbol))

end GrammarDef

/-- What may stand between tokens: named tokens, and patterns that the lexer passes over. -/
structure Extras where
  symbols : Array SymbolInfo
  named : List Symbol := []
  skips : List String := []
  deriving Inhabited

def Extras.add (ruleNames : List String) (names : Std.HashMap String Symbol) (e : Extras) :
    Rule → Except Malformed Extras
  | .symbol name =>
    match names[name]? with
    | some symbol => .ok { e with
        symbols := e.symbols.modify symbol.index fun info => { info with extra := true }
        named := e.named ++ [symbol] }
    | none =>
      if ruleNames.contains name then .error (.unsupportedExtra name)
      else .error (.unknownSymbol "extras" name)
  | .pattern source => .ok { e with skips := e.skips ++ [source] }
  | .literal text => .ok { e with skips := e.skips ++ [Pattern.literalSource text] }
  | .token body => do return { e with skips := e.skips ++ [← tokenSource "extras" body] }
  | other => .error (.unsupportedExtra other.describe)

/-- White space stands between tokens unless a definition says otherwise. -/
def defaultExtras : List Rule := [.pattern "\\s"]

/-- Numbers the rules that are not lexical; gives their names, bodies and symbols. -/
def addNonterminals (symbols : Array SymbolInfo) (rules : List (String × Rule)) :
    Except Malformed (Array SymbolInfo × List (String × Rule × Symbol)) :=
  rules.foldlM
    (fun (symbols, found) (name, body) =>
      if body.isLexical then .ok (symbols, found)
      else do
        let info : SymbolInfo := ⟨name, .nonterminal, Terminals.isVisibleName name, true, false⟩
        let (symbol, symbols) ← addSymbol symbols info
        return (symbols, found ++ [(name, body, symbol)]))
    (symbols, [])

/-- The distinct names in ascending order. -/
def sortedNames (names : List String) : List String :=
  names.eraseDups.mergeSort fun a b => decide (a ≤ b)

/-- The productions of the rules, followed by those of the auxiliary symbols. -/
def expandRules (scopeOf : String → Symbol → ExpansionScope) (symbols : Array SymbolInfo)
    (rules : List (String × Rule × Symbol)) :
    Except Malformed (Expansion × List Production) := do
  let (expansion, productions) ← rules.foldlM
    (fun ((expansion, productions) : Expansion × List (List Production)) (name, body, symbol) => do
      let (alts, expansion) ←
        (expand (scopeOf name symbol) body).run { expansion with repeatCount := 0 }
      let alts := Alternative.distinct alts
      if alts.isEmpty then throw (.emptyRule name)
      return (expansion, alts.map (·.toProduction symbol) :: productions))
    ({ symbols := symbols }, [])
  let auxiliary := expansion.auxiliaries.reverse.flatMap fun (symbol, alts) =>
    (Alternative.distinct alts).map (·.toProduction symbol)
  return (expansion, productions.reverse.flatten ++ auxiliary)

/-- Refuses tokens whose patterns are no patterns or match the empty text, and skips whose patterns
are no patterns. -/
def checkPatterns (symbols : Array SymbolInfo) (tokens : Array TokenDef) (skips : List String) :
    Except Malformed Unit := do
  for token in tokens do
    let name := (symbols.getD token.symbol.index SymbolInfo.error).name
    match Pattern.wholeText token.pattern with
    | .error cause => throw (.invalidPattern name cause.message)
    | .ok automaton => if Pattern.contains automaton [] then throw (.emptyToken name)
  for skip in skips do
    if let .error cause := Pattern.wholeText skip then throw (.invalidPattern "extras" cause.message)

/-- The word token, and the literals that its pattern matches as a whole. -/
def findKeywords (t : Terminals) (names : Std.HashMap String Symbol) :
    Option String → Except Malformed (Option Symbol × List (String × Symbol))
  | none => .ok (none, [])
  | some name => do
    let some symbol := names[name]? | throw (.unknownSymbol "word" name)
    let some token := t.tokens.find? (·.symbol = symbol) | throw (.invalidWordToken name)
    match Pattern.wholeText token.pattern with
    | .error cause => throw (.invalidPattern name cause.message)
    | .ok automaton =>
      let keywords := t.literalTexts.filterMap fun (keyword, text) =>
        if keyword ≠ symbol ∧ Pattern.contains automaton text.toUTF8.data.toList then
          some (text, keyword)
        else none
      return (some symbol, keywords)

/-- The symbols of a declared conflict, all of them rules. -/
def conflictSet (terminalCount : Nat) (names : Std.HashMap String Symbol) (set : List String) :
    Except Malformed (List Symbol) :=
  set.mapM fun name =>
    match names[name]? with
    | some symbol =>
      if symbol.index ≥ terminalCount then .ok symbol else .error (.unknownSymbol "conflicts" name)
    | none => .error (.unknownSymbol "conflicts" name)

/-- The terminal that a precedence declaration names, with the name for messages. -/
def precedenceToken (terminalCount : Nat) (t : Terminals) (names : Std.HashMap String Symbol) :
    Rule → Option Symbol × String
  | .literal text => ((t.literalTexts.find? (·.2 = text)).map (·.1), text)
  | .symbol name => ((names[name]?).filter (·.index < terminalCount), name)
  | other => (none, other.describe)

/-- The declared precedences of tokens; two declarations of one token have to agree. -/
def tokenPrecedences (terminalCount : Nat) (t : Terminals) (names : Std.HashMap String Symbol)
    (decls : List PrecedenceDecl) : Except Malformed (List (Symbol × Precedence)) :=
  decls.foldlM
    (fun found decl => decl.tokens.foldlM
      (fun found token =>
        let (symbol, name) := precedenceToken terminalCount t names token
        match symbol with
        | none => .error (.unknownSymbol "precedence" name)
        | some symbol =>
          let entry : Precedence := ⟨decl.level, decl.assoc⟩
          match found.lookup symbol with
          | none => .ok ((symbol, entry) :: found)
          | some previous =>
            if previous = entry then .ok found else .error (.contradictoryPrecedence name))
      found)
    []

/-- The symbols that right-hand sides lead to from the symbols in the queue. -/
def reachable (byLhs : Std.HashMap Symbol (List Symbol)) : Nat → List Symbol → SymbolSet → SymbolSet
  | 0, _, reached => reached
  | _, [], reached => reached
  | fuel + 1, symbol :: queue, reached =>
    let (reached, found) := ((byLhs[symbol]?).getD []).foldl
      (fun (reached, found) s =>
        if reached.contains s then (reached, found) else (reached.insert s, s :: found))
      (reached, [])
    reachable byLhs fuel (queue ++ found.reverse) reached

/-- The rules that neither the start symbol nor the extras lead to. -/
def unreachableRules (symbolCount : Nat) (rules : List (String × Symbol))
    (productions : List Production) (start : Symbol) (extras : List Symbol) :
    List GrammarWarning :=
  let byLhs := productions.foldl
    (fun (m : Std.HashMap Symbol (List Symbol)) p =>
      m.insert p.lhs (((m[p.lhs]?).getD []) ++ p.rhs)) {}
  let reached := reachable byLhs (symbolCount + 1) [start] ((SymbolSet.ofList extras).insert start)
  rules.filterMap fun (name, symbol) =>
    if reached.contains symbol then none else some (.unreachableRule name)

/-- The name of the augmented start symbol. -/
def augmentedStartName : String := "start'"

/-- Checks and expands a definition. -/
def Grammar.load (g : GrammarDef) : Except Malformed Grammar := do
  let startName ← g.startName
  let (t, externals) ← g.terminals
  let terminalCount := t.symbols.size
  let extras ← (g.extras.getD defaultExtras).foldlM (Extras.add g.ruleNames t.names)
    { symbols := t.symbols }
  let (augmented, symbols) ←
    addSymbol extras.symbols ⟨augmentedStartName, .auxiliary, false, false, false⟩
  let (symbols, rules) ← addNonterminals symbols g.rules
  let names := rules.foldl (fun (m : Std.HashMap String Symbol) (name, _, symbol) =>
    m.insert name symbol) t.names
  let start := (names[startName]?).getD Symbol.error
  let fields := sortedNames (rules.flatMap fun (_, body, _) => body.fieldNames)
  let scopeOf (rule : String) (ruleSymbol : Symbol) : ExpansionScope :=
    ⟨rule, ruleSymbol, names, t.literals, t.patterns, fields⟩
  let (expansion, productions) ← expandRules scopeOf symbols rules
  let productions := { lhs := augmented, steps := #[{ symbol := start }] } :: productions
  checkPatterns expansion.symbols t.tokens extras.skips
  let (word, keywords) ← findKeywords t names g.word
  let conflicts ← g.conflicts.mapM (conflictSet terminalCount names)
  let precedence ← tokenPrecedences terminalCount t names g.precedences
  let ruleSymbols := g.rules.map fun (name, _) => (name, (names[name]?).getD Symbol.error)
  return {
    name := g.name
    symbols := expansion.symbols
    terminalCount := terminalCount
    start := start
    productions := productions.toArray
    fields := fields.toArray
    tokens := t.tokens
    skips := extras.skips
    extras := extras.named
    externals := externals.toArray
    word := word
    keywords := keywords
    conflicts := conflicts
    tokenPrecedence := precedence
    auxOrigin := expansion.auxOrigin
    warnings := unreachableRules expansion.symbols.size ruleSymbols productions start extras.named }

end IncrementalLR
