import IncrementalLR.Grammar.Terminals

/-!
# Expansion of rules into productions

A rule expression is expanded into flat alternatives: choices and optionals are written out, and a
repetition becomes a hidden auxiliary symbol that repeats itself on the left. Precedences and fields
are kept by the steps and alternatives inside them; the innermost one counts.
-/

namespace IncrementalLR

/-- A flat sequence of steps with what holds of it as a whole. -/
structure Alternative where
  steps : List Step := []
  precedence : Option Precedence := none
  dynamic : Int32 := 0
  deriving DecidableEq, Repr, Inhabited

namespace Alternative

def single (symbol : Symbol) : Alternative := { steps := [{ symbol := symbol }] }

/-- One alternative after another; what the second says of the whole counts before the first. -/
def append (a b : Alternative) : Alternative :=
  { steps := a.steps ++ b.steps
    precedence := b.precedence.or a.precedence
    dynamic := if b.dynamic ≠ 0 then b.dynamic else a.dynamic }

/-- Gives a precedence to the alternative and to the steps that have none. -/
def rank (p : Precedence) (a : Alternative) : Alternative :=
  { a with
    steps := a.steps.map fun step => { step with precedence := step.precedence.or (some p) }
    precedence := a.precedence.or (some p) }

def weigh (value : Int32) (a : Alternative) : Alternative :=
  { a with dynamic := if a.dynamic = 0 then value else a.dynamic }

/-- Labels the steps that have no label. -/
def label (field : FieldId) (a : Alternative) : Alternative :=
  { a with steps := a.steps.map fun step => { step with field := step.field.or (some field) } }

def symbols (a : Alternative) : List Symbol := a.steps.map (·.symbol)

def toProduction (lhs : Symbol) (a : Alternative) : Production :=
  ⟨lhs, a.steps.toArray, a.precedence, a.dynamic⟩

/-- Every choice of one alternative from the first list and one from the second. -/
def product (as bs : List Alternative) : List Alternative :=
  as.flatMap fun a => bs.map fun b => a.append b

/-- The first of several alternatives with the same symbols. -/
def distinct (as : List Alternative) : List Alternative :=
  (as.foldl (fun (state : List Alternative × Std.HashMap (List Symbol) Unit) a =>
    if state.2.contains a.symbols then state
    else (a :: state.1, state.2.insert a.symbols ())) ([], {})).1.reverse

end Alternative

/-- What a rule under expansion refers to. -/
structure ExpansionScope where
  rule : String
  ruleSymbol : Symbol
  names : Std.HashMap String Symbol
  literals : Std.HashMap String Symbol
  patterns : Std.HashMap String Symbol
  fields : List String

/-- What expansion adds to the grammar. -/
structure Expansion where
  symbols : Array SymbolInfo
  /-- the alternatives of auxiliary symbols, last symbol first -/
  auxiliaries : List (Symbol × List Alternative) := []
  auxOrigin : List (Symbol × Symbol) := []
  /-- the number of repetitions in the rule under way -/
  repeatCount : Nat := 0
  deriving Inhabited

abbrev Expand := StateT Expansion (Except Malformed)

namespace ExpansionScope

def literalSymbol (scope : ExpansionScope) (text : String) : Symbol :=
  (scope.literals[text]?).getD Symbol.error

def patternSymbol (scope : ExpansionScope) (source : String) : Symbol :=
  (scope.patterns[source]?).getD Symbol.error

def fieldId (scope : ExpansionScope) (name : String) : FieldId :=
  ⟨(scope.fields.idxOf name).toUInt16⟩

end ExpansionScope

/-- The auxiliary symbol of a repetition: it derives one or more of the non-empty alternatives.
There is none when all alternatives are empty. -/
def addRepetition (scope : ExpansionScope) (alts : List Alternative) : Expand (Option Symbol) := do
  let alts := alts.filter fun alt => !alt.steps.isEmpty
  if alts.isEmpty then return none
  let state ← get
  let name := scope.rule ++ "_repeat" ++ toString (state.repeatCount + 1)
  let (symbol, symbols) ← liftM (addSymbol state.symbols ⟨name, .auxiliary, false, false, false⟩)
  let again := alts.map (Alternative.single symbol).append
  set { state with
    symbols := symbols
    auxiliaries := (symbol, again ++ alts) :: state.auxiliaries
    auxOrigin := (symbol, scope.ruleSymbol) :: state.auxOrigin
    repeatCount := state.repeatCount + 1 }
  return some symbol

mutual

/-- The alternatives of a rule expression. -/
def expand (scope : ExpansionScope) : Rule → Expand (List Alternative)
  | .blank => return [{}]
  | .literal text => return [.single (scope.literalSymbol text)]
  | .pattern source => return [.single (scope.patternSymbol source)]
  | .token (.literal text) => return [.single (scope.literalSymbol text)]
  | .token body => do
    return [.single (scope.patternSymbol (← liftM (tokenSource scope.rule body)))]
  | .symbol name =>
    match scope.names[name]? with
    | some symbol => return [.single symbol]
    | none => throw (.undefinedSymbol scope.rule name)
  | .seq items => expandSeq scope [{}] items
  | .choice items => expandChoice scope items
  | .optional body => do return (← expand scope body) ++ [{}]
  | .oneOrMore body => do
    match ← addRepetition scope (← expand scope body) with
    | some symbol => return [.single symbol]
    | none => return [{}]
  | .zeroOrMore body => do
    match ← addRepetition scope (← expand scope body) with
    | some symbol => return [.single symbol, {}]
    | none => return [{}]
  | .ranked value assoc body => do return (← expand scope body).map (.rank ⟨value, assoc⟩)
  | .weighted value body => do return (← expand scope body).map (.weigh value)
  | .field name body => do return (← expand scope body).map (.label (scope.fieldId name))

/-- The alternatives of a sequence behind the given ones. -/
def expandSeq (scope : ExpansionScope) (before : List Alternative) :
    List Rule → Expand (List Alternative)
  | [] => return before
  | item :: items => do
    let alts ← expand scope item
    expandSeq scope (Alternative.product before alts) items

def expandChoice (scope : ExpansionScope) : List Rule → Expand (List Alternative)
  | [] => return []
  | item :: items => do
    let alts ← expand scope item
    return alts ++ (← expandChoice scope items)

end

mutual

/-- The field names in a rule expression; lexical expressions have none. -/
def Rule.fieldNames : Rule → List String
  | .field name body => name :: fieldNames body
  | .seq items => fieldNamesAll items
  | .choice items => fieldNamesAll items
  | .zeroOrMore body => fieldNames body
  | .oneOrMore body => fieldNames body
  | .optional body => fieldNames body
  | .ranked _ _ body => fieldNames body
  | .weighted _ body => fieldNames body
  | .blank => []
  | .literal _ => []
  | .pattern _ => []
  | .symbol _ => []
  | .token _ => []

def Rule.fieldNamesAll : List Rule → List String
  | [] => []
  | item :: items => fieldNames item ++ fieldNamesAll items

end

end IncrementalLR
