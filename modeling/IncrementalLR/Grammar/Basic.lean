import IncrementalLR.Symbol
import IncrementalLR.Grammar.Rule

/-!
# Grammars

A loaded grammar: numbered symbols, flat productions, the patterns of the tokens, and what the table
compiler needs to settle conflicts. Production zero derives the start symbol from the augmented
start symbol.
-/

namespace IncrementalLR

/-- A static precedence with its associativity. -/
structure Precedence where
  value : Int32
  assoc : Option Associativity
  deriving DecidableEq, Repr, Inhabited

/-- One element of the right-hand side of a production. -/
structure Step where
  symbol : Symbol
  field : Option FieldId := none
  precedence : Option Precedence := none
  deriving DecidableEq, Repr, Inhabited

/-- A flat production. Its own precedence serves when its last step has none. -/
structure Production where
  lhs : Symbol
  steps : Array Step
  precedence : Option Precedence := none
  dynamicPrecedence : Int32 := 0
  deriving DecidableEq, Repr, Inhabited

/-- The symbols of the right-hand side. -/
def Production.rhs (p : Production) : List Symbol := p.steps.toList.map (·.symbol)

/-- A token of the lexer; the pattern of a literal is its escaped text. -/
structure TokenDef where
  symbol : Symbol
  pattern : String
  literal : Bool
  deriving DecidableEq, Repr, Inhabited

/-- A finding that does not keep a grammar from loading. -/
inductive GrammarWarning where
  /-- neither the start rule nor the extras lead to the rule -/
  | unreachableRule (name : String)
  deriving DecidableEq, Repr, Inhabited

def GrammarWarning.message : GrammarWarning → String
  | unreachableRule name => "rule `" ++ name ++ "` is unreachable"

structure Grammar where
  name : String
  symbols : Array SymbolInfo
  /-- terminals and externals come first among the symbols -/
  terminalCount : Nat
  start : Symbol
  productions : Array Production
  fields : Array String
  tokens : Array TokenDef
  /-- patterns of what the lexer passes over between tokens -/
  skips : List String
  extras : List Symbol
  externals : Array Symbol
  word : Option Symbol
  keywords : List (String × Symbol)
  conflicts : List (List Symbol)
  tokenPrecedence : List (Symbol × Precedence)
  /-- the rule from which an auxiliary symbol was expanded -/
  auxOrigin : List (Symbol × Symbol)
  warnings : List GrammarWarning
  deriving Inhabited

namespace Grammar

def isTerminal (g : Grammar) (s : Symbol) : Bool := s.index < g.terminalCount

def symbolInfo (g : Grammar) (s : Symbol) : SymbolInfo :=
  if s = Symbol.error then SymbolInfo.error else g.symbols.getD s.index SymbolInfo.error

def symbolName (g : Grammar) (s : Symbol) : String := (g.symbolInfo s).name

/-- The name of a symbol, quoted when it is a literal token. -/
def displaySymbol (g : Grammar) (s : Symbol) : String :=
  let info := g.symbolInfo s
  if info.kind = .terminal ∧ ¬ info.named ∧ info.visible then Text.quoted info.name else info.name

/-- A production with an arrow between its sides. -/
def displayProduction (g : Grammar) (p : Production) : String :=
  p.rhs.foldl (fun out s => out ++ " " ++ g.displaySymbol s) (g.symbolName p.lhs ++ " ->")

/-- The rule to which a symbol belongs; auxiliary symbols belong to the rule they came from. -/
def origin (g : Grammar) (s : Symbol) : Symbol := (g.auxOrigin.lookup s).getD s

end Grammar

end IncrementalLR
