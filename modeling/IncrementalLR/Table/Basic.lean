import IncrementalLR.Grammar.Basic

/-!
# Parse tables

A table has one row of actions for each state and one column for each symbol, together with what the
lexer needs and a record of how conflicts were settled. States, productions and ambiguous entries
have numbers of 32 bits, lex modes and dots of 16.
-/

namespace IncrementalLR

abbrev StateId := UInt32

abbrev ProductionId := UInt32

/-- A set of terminals that the lexer may return. Mode zero, in which every terminal is valid, is
the mode of errors. -/
abbrev LexMode := UInt16

def LexMode.error : LexMode := 0

/-- One entry of a table. -/
inductive Action where
  | error
  | accept
  | shift (target : StateId)
  | reduce (production : ProductionId)
  /-- several actions, kept in the list of ambiguous entries -/
  | ambig (entry : UInt32)
  | goto (target : StateId)
  deriving DecidableEq, Repr, Inhabited

namespace Action

def render : Action → String
  | error => "error"
  | accept => "accept"
  | shift target => "shift " ++ toString target.toNat
  | reduce production => "reduce " ++ toString production.toNat
  | ambig entry => "ambig " ++ toString entry.toNat
  | goto target => "goto " ++ toString target.toNat

def isShift : Action → Bool
  | shift _ => true
  | _ => false

end Action

/-- What is needed of a production to reduce by it. -/
structure ProductionInfo where
  lhs : Symbol
  rhs : Array Symbol
  /-- the field of each symbol of the right-hand side -/
  fields : Array (Option FieldId)
  dynamicPrecedence : Int32
  deriving DecidableEq, Repr, Inhabited

/-- Why a conflict was settled the way it was. -/
inductive ResolutionReason where
  /-- one side has the higher precedence -/
  | precedence
  /-- equal precedence, settled by left or right associativity -/
  | associativity
  /-- equal precedence of an operator that does not chain: the entry is an error -/
  | nonAssociative
  /-- the symbols are in a declared conflict: all actions are kept -/
  | declaredConflict
  /-- settled by the policy -/
  | policy
  deriving DecidableEq, Repr, Inhabited

def ResolutionReason.name : ResolutionReason → String
  | precedence => "Precedence"
  | associativity => "Associativity"
  | nonAssociative => "NonAssociative"
  | declaredConflict => "DeclaredConflict"
  | policy => "Policy"

/-- The record of one conflict. -/
structure Resolution where
  state : StateId
  lookahead : Symbol
  kept : Action
  discarded : List Action
  reason : ResolutionReason
  deriving DecidableEq, Repr, Inhabited

/-- A production with a dot in its right-hand side. -/
structure KernelItem where
  production : ProductionId
  dot : UInt16
  deriving DecidableEq, Repr, Inhabited

/-- What the lexer of a language is made from. -/
structure LexicalSpec where
  tokens : Array TokenDef := #[]
  /-- patterns of what is passed over between tokens -/
  skips : Array String := #[]
  word : Option Symbol := none
  keywords : Array (String × Symbol) := #[]
  deriving DecidableEq, Repr, Inhabited

structure Table where
  name : String
  symbols : Array SymbolInfo
  terminalCount : Nat
  startSymbol : Symbol
  fields : Array String
  productions : Array ProductionInfo
  stateCount : Nat
  /-- row by row -/
  actions : Array Action
  ambigs : Array (Array Action)
  /-- reductions that depended on the lookahead, ascending -/
  fragile : List (StateId × ProductionId)
  /-- targets of shifts that lost a conflict, ascending -/
  breakdown : List (StateId × Symbol × StateId)
  lexModes : Array (Array Symbol)
  stateModes : Array LexMode
  lexical : LexicalSpec
  extras : Array Symbol
  externals : Array Symbol
  resolutions : Array Resolution
  kernels : Array (Array KernelItem)
  startState : StateId
  deriving DecidableEq, Repr, Inhabited

namespace Table

def symbolCount (t : Table) : Nat := t.symbols.size

def isTerminal (t : Table) (s : Symbol) : Bool := s.index < t.terminalCount

def symbolInfo (t : Table) (s : Symbol) : SymbolInfo :=
  if s = Symbol.error then SymbolInfo.error else t.symbols.getD s.index SymbolInfo.error

def symbolName (t : Table) (s : Symbol) : String := (t.symbolInfo s).name

/-- The name of a symbol, quoted when it is a literal token. -/
def displaySymbol (t : Table) (s : Symbol) : String :=
  let info := t.symbolInfo s
  if info.kind = .terminal ∧ ¬ info.named ∧ info.visible then Text.quoted info.name else info.name

/-- The first symbol of a name; the name of one that is not named is its text. -/
def symbolForName? (t : Table) (name : String) (named : Bool) : Option Symbol :=
  (t.symbols.findIdx? fun info =>
    info.name == name && info.named == named && info.kind != .auxiliary).map Symbol.ofIndex

def fieldName (t : Table) (f : FieldId) : String := t.fields.getD f.index ""

def fieldId? (t : Table) (name : String) : Option FieldId :=
  (t.fields.findIdx? (· == name)).map fun i => ⟨i.toUInt16⟩

def production (t : Table) (p : ProductionId) : ProductionInfo := t.productions.getD p.toNat default

/-- The entry for a symbol in a state. -/
def action (t : Table) (state : StateId) (s : Symbol) : Action :=
  if s = Symbol.error then .error
  else t.actions.getD (state.toNat * t.symbols.size + s.index) .error

/-- The actions of an ambiguous entry: the shift if there is one, then reductions by ascending
production. -/
def ambig (t : Table) (entry : UInt32) : Array Action := t.ambigs.getD entry.toNat #[]

/-- The actions for a symbol in a state. -/
def actionList (t : Table) (state : StateId) (s : Symbol) : List Action :=
  match t.action state s with
  | .error => []
  | .ambig entry => (t.ambig entry).toList
  | action => [action]

def goto? (t : Table) (state : StateId) (s : Symbol) : Option StateId :=
  match t.action state s with
  | .goto target => some target
  | _ => none

/-- The target of a shift that lost its conflict. -/
def breakdown? (t : Table) (state : StateId) (s : Symbol) : Option StateId :=
  (t.breakdown.find? fun (q, x, _) => q = state ∧ x = s).map (·.2.2)

def shiftTarget? : List Action → Option StateId
  | [] => none
  | .shift target :: _ => some target
  | _ :: rest => shiftTarget? rest

/-- The state behind a symbol on top of a state, also where the shift lost a conflict. -/
def nextState? (t : Table) (state : StateId) (s : Symbol) : Option StateId :=
  match t.action state s with
  | .goto target => some target
  | .shift target => some target
  | .ambig entry => shiftTarget? (t.ambig entry).toList
  | .error | .accept | .reduce _ => t.breakdown? state s

/-- The transitions that the actions do not show as a shift or a goto, by ascending state and
symbol. -/
def brokenShifts (t : Table) : List (StateId × Symbol × StateId) :=
  (List.range t.stateCount).flatMap fun i =>
    let state := i.toUInt32
    let lost := t.breakdown.filterMap fun (q, s, target) => if q = state then some (s, target) else none
    (List.range t.symbolCount).filterMap fun j =>
      let s := Symbol.ofIndex j
      let next := match t.action state s with
        | .goto _ | .shift _ => none
        | .ambig entry => shiftTarget? (t.ambig entry).toList
        | .error | .accept | .reduce _ => lost.lookup s
      next.map fun target => (state, s, target)

/-- Whether the reduction depends on the lookahead in this state. -/
def isFragile (t : Table) (state : StateId) (p : ProductionId) : Bool :=
  t.fragile.contains (state, p)

def lexMode (t : Table) (state : StateId) : LexMode := t.stateModes.getD state.toNat 0

/-- The terminals that are valid in a lex mode. -/
def validSymbols (t : Table) (mode : LexMode) : Array Symbol := t.lexModes.getD mode.toNat #[]

def kernel (t : Table) (state : StateId) : Array KernelItem := t.kernels.getD state.toNat #[]

/-- An item with a dot at its place. -/
def displayItem (t : Table) (item : KernelItem) : String :=
  let info := t.production item.production
  let dot := item.dot.toNat
  let mark (i : Nat) : String := if i = dot then " •" else ""
  info.rhs.toList.zipIdx.foldl (fun out (s, i) => out ++ mark i ++ " " ++ t.displaySymbol s)
    (t.symbolName info.lhs ++ " ->") ++ mark info.rhs.size

end Table

end IncrementalLR
