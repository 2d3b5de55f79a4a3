/-!
# Errors of grammars

The causes for which a definition does not load, and the conflicts for which a grammar does not
compile.
-/

namespace IncrementalLR

/-- The ways in which a grammar definition is malformed. -/
inductive Malformed where
  | noRules
  | missingStartRule (name : String)
  | undefinedSymbol (rule symbol : String)
  | duplicateRule (name : String)
  | emptyRule (name : String)
  | contradictoryPrecedence (token : String)
  | invalidPattern (token reason : String)
  | emptyToken (token : String)
  | unknownSymbol (directive symbol : String)
  | invalidWordToken (name : String)
  | unsupportedExtra (extra : String)
  | externalRedefined (name : String)
  | tooManySymbols (count : Nat)
  deriving DecidableEq, Repr, Inhabited

def Malformed.message : Malformed → String
  | noRules => "grammar has no rules"
  | missingStartRule name => "start rule `" ++ name ++ "` is not defined"
  | undefinedSymbol rule symbol => "rule `" ++ rule ++ "` references undefined symbol `" ++ symbol ++ "`"
  | duplicateRule name => "rule `" ++ name ++ "` is defined more than once"
  | emptyRule name => "rule `" ++ name ++ "` has no alternatives"
  | contradictoryPrecedence token =>
    "contradictory precedence declarations for token `" ++ token ++ "`"
  | invalidPattern token reason => "invalid pattern for token `" ++ token ++ "`: " ++ reason
  | emptyToken token => "token `" ++ token ++ "` matches the empty string"
  | unknownSymbol directive symbol => directive ++ " refers to unknown symbol `" ++ symbol ++ "`"
  | invalidWordToken name => "word token `" ++ name ++ "` must be a lexical rule"
  | unsupportedExtra extra => "extra `" ++ extra ++ "` must be a token or a pattern"
  | externalRedefined name => "external token `" ++ name ++ "` is also defined as a rule"
  | tooManySymbols count =>
    "grammar needs " ++ toString count ++ " symbols, more than a table can address"

/-- Whether a shift is among the colliding actions. -/
inductive ConflictKind where
  | shiftReduce
  | reduceReduce
  deriving DecidableEq, Repr, Inhabited

def ConflictKind.name : ConflictKind → String
  | shiftReduce => "shift/reduce"
  | reduceReduce => "reduce/reduce"

/-- A conflict that nothing settles, described with the names of symbols. -/
structure Conflict where
  state : Nat
  lookahead : String
  kind : ConflictKind
  actions : List String
  /-- the kernel items of the state in dotted notation -/
  items : List String
  deriving DecidableEq, Repr, Inhabited

def Conflict.message (c : Conflict) : String :=
  c.items.foldl (fun out item => out ++ "\n    " ++ item)
    (c.kind.name ++ " conflict in state " ++ toString c.state ++ " on `" ++ c.lookahead ++ "`: " ++
      " | ".intercalate c.actions)

end IncrementalLR
