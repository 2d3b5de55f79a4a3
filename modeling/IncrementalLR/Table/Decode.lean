import IncrementalLR.Table.Encode

/-!
# Reading the stored form of a table

A reader takes bytes from the front. Numbers are checked where they are read as far as the sections
read before allow; what refers to a later section is checked when everything is read.
-/

namespace IncrementalLR.Table

/-- Takes a value from the front of a sequence of bytes. -/
abbrev Decoder (α : Type) := StateT (List UInt8) (Except TableError) α

namespace Decode

def u8 : Decoder UInt8 := fun
  | a :: rest => .ok (a, rest)
  | [] => .error .endOfData

def u16 : Decoder UInt16 := fun
  | a :: b :: rest => .ok (a.toUInt16 ||| b.toUInt16 <<< 8, rest)
  | _ => .error .endOfData

def u32 : Decoder UInt32 := fun
  | a :: b :: c :: d :: rest =>
    .ok (a.toUInt32 ||| b.toUInt32 <<< 8 ||| c.toUInt32 <<< 16 ||| d.toUInt32 <<< 24, rest)
  | _ => .error .endOfData

def i32 : Decoder Int32 := do return (← u32).toInt32

def size : Decoder Nat := do return (← u32).toNat

/-- Takes a number of bytes, added to those taken before. -/
def takeBytes : Nat → ByteArray → Decoder ByteArray
  | 0, taken, rest => .ok (taken, rest)
  | n + 1, taken, b :: rest => takeBytes n (taken.push b) rest
  | _ + 1, _, [] => .error .endOfData

def text : Decoder String := do
  let bytes ← takeBytes (← size) ByteArray.empty
  match String.fromUTF8? bytes with
  | some s => return s
  | none => throw .nameNotUtf8

/-- Takes a number of elements, added to those taken before. -/
def takeInto {α : Type} (element : Decoder α) : Nat → Array α → Decoder (Array α)
  | 0, taken, rest => .ok (taken, rest)
  | n + 1, taken, bytes =>
    match element bytes with
    | .ok (a, rest) => takeInto element n (taken.push a) rest
    | .error cause => .error cause

def many {α : Type} (n : Nat) (element : Decoder α) : Decoder (Array α) := takeInto element n #[]

/-- Takes the elements of a list behind its length. -/
def list {α : Type} (element : Decoder α) : Decoder (Array α) := do many (← size) element

/-- Takes a symbol below a bound. -/
def symbol (bound : Nat) : Decoder Symbol := do
  let s ← u16
  if s.toNat < bound then return ⟨s⟩ else throw (.symbolOutOfRange s)

def symbols (bound : Nat) : Decoder (Array Symbol) := list (symbol bound)

def kind : Decoder SymbolKind := do
  match ← u8 with
  | 0 => return .terminal
  | 1 => return .external
  | 2 => return .nonterminal
  | 3 => return .auxiliary
  | other => throw (.symbolKind other)

def symbolInfo : Decoder SymbolInfo := do
  let name ← text
  let kind ← kind
  let flags ← u8
  return ⟨name, kind, flags &&& 1 != 0, flags &&& 2 != 0, flags &&& 4 != 0⟩

/-- Takes an optional field below a bound. -/
def field (bound : Nat) : Decoder (Option FieldId) := do
  let f ← u16
  if f = 65535 then return none
  else if f.toNat < bound then return some ⟨f⟩
  else throw (.fieldOutOfRange f)

def step (symbolBound fieldBound : Nat) : Decoder (Symbol × Option FieldId) := do
  return (← symbol symbolBound, ← field fieldBound)

def production (symbolBound fieldBound : Nat) : Decoder ProductionInfo := do
  let lhs ← symbol symbolBound
  let dynamic ← i32
  let steps ← list (step symbolBound fieldBound)
  return ⟨lhs, steps.map (·.1), steps.map (·.2), dynamic⟩

def action : Decoder Action := do
  let tag ← u8
  let arg ← u32
  match tag with
  | 0 => return .error
  | 1 => return .accept
  | 2 => return .shift arg
  | 3 => return .reduce arg
  | 4 => return .ambig arg
  | 5 => return .goto arg
  | other => throw (.actionTag other)

def fragile : Decoder (StateId × ProductionId) := do return (← u32, ← u32)

def breakdown (bound : Nat) : Decoder (StateId × Symbol × StateId) := do
  return (← u32, ← symbol bound, ← u32)

def lexMode (bound : Nat) : Decoder LexMode := do
  let mode ← u16
  if mode.toNat < bound then return mode else throw (.lexModeOutOfRange mode)

def token (bound : Nat) : Decoder TokenDef := do
  return ⟨← symbol bound, ← text, (← u8) != 0⟩

/-- Takes an optional symbol below a bound. -/
def word (bound : Nat) : Decoder (Option Symbol) := do
  let s ← u16
  if s = 65535 then return none
  else if s.toNat < bound then return some ⟨s⟩
  else throw (.symbolOutOfRange s)

def keyword (bound : Nat) : Decoder (String × Symbol) := do return (← text, ← symbol bound)

def reason : Decoder ResolutionReason := do
  match ← u8 with
  | 0 => return .precedence
  | 1 => return .associativity
  | 2 => return .nonAssociative
  | 3 => return .declaredConflict
  | 4 => return .policy
  | other => throw (.resolutionReason other)

def resolution (bound : Nat) : Decoder Resolution := do
  let state ← u32
  let lookahead ← symbol bound
  let kept ← action
  let discarded ← list action
  return ⟨state, lookahead, kept, discarded.toList, ← reason⟩

def kernelItem : Decoder KernelItem := do return ⟨← u32, ← u16⟩

/-- Of neighbours with equal keys, the last. -/
def lastOfEach {α κ : Type} [DecidableEq κ] (key : α → κ) : List α → List α
  | a :: b :: rest =>
    if key a = key b then lastOfEach key (b :: rest) else a :: lastOfEach key (b :: rest)
  | rest => rest

/-- The pairs in ascending order, each once. -/
def fragileSet (pairs : List (StateId × ProductionId)) : List (StateId × ProductionId) :=
  lastOfEach id (pairs.mergeSort fun a b => a.1 < b.1 || (a.1 == b.1 && a.2 ≤ b.2))

/-- The entries in ascending order of state and symbol; of two for one cell the last holds. -/
def breakdownMap (entries : List (StateId × Symbol × StateId)) : List (StateId × Symbol × StateId) :=
  lastOfEach (fun e => (e.1, e.2.1)) (entries.mergeSort fun a b =>
    a.1 < b.1 || (a.1 == b.1 && a.2.1.id ≤ b.2.1.id))

/-- Takes a whole table, without the checks that need all of it. -/
def table : Decoder Table := do
  let mark ← takeBytes 4 ByteArray.empty
  if mark.data.toList ≠ Encode.magic then throw .badMagic
  let version ← u32
  if version ≠ formatVersion then throw (.version version)
  let name ← text
  let infos ← list symbolInfo
  let n := infos.size
  let terminalCount ← size
  let startSymbol ← symbol n
  let fields ← list text
  let productions ← list (production n fields.size)
  let stateCount ← size
  let actions ← many (stateCount * n) action
  let ambigs ← list (list action)
  let fragile ← list fragile
  let breakdown ← list (breakdown n)
  let lexModes ← list (symbols n)
  let stateModes ← many stateCount (lexMode lexModes.size)
  let tokens ← list (token n)
  let skips ← list text
  let word ← word n
  let keywords ← list (keyword n)
  let extras ← symbols n
  let externals ← symbols n
  let resolutions ← list (resolution n)
  let kernels ← many stateCount (list kernelItem)
  let startState ← u32
  return {
    name := name
    symbols := infos
    terminalCount := terminalCount
    startSymbol := startSymbol
    fields := fields
    productions := productions
    stateCount := stateCount
    actions := actions
    ambigs := ambigs
    fragile := fragileSet fragile.toList
    breakdown := breakdownMap breakdown.toList
    lexModes := lexModes
    stateModes := stateModes
    lexical := ⟨tokens, skips, word, keywords⟩
    extras := extras
    externals := externals
    resolutions := resolutions
    kernels := kernels
    startState := startState }

end Decode

/-- What an action refers to exists. -/
def actionOk (t : Table) : Action → Bool
  | .error | .accept => true
  | .shift target | .goto target => target.toNat < t.stateCount
  | .reduce production => production.toNat < t.productions.size
  | .ambig entry => entry.toNat < t.ambigs.size

def kernelItemOk (t : Table) (item : KernelItem) : Bool :=
  match t.productions[item.production.toNat]? with
  | some info => item.dot.toNat ≤ info.rhs.size
  | none => false

def isAmbig : Action → Bool
  | .ambig _ => true
  | _ => false

/-- What is wrong with a table as a whole. -/
def problem? (t : Table) : Option TableError :=
  if t.terminalCount = 0 ∨ t.terminalCount > t.symbols.size then some .terminalCount
  else if t.startState.toNat ≥ t.stateCount ∨ t.lexModes.isEmpty then some .emptyAutomaton
  else
    match (t.actions.find? (!t.actionOk ·)).or (t.ambigs.findSome? (·.find? (!t.actionOk ·))) with
    | some action => some (.danglingAction action)
    | none =>
      if t.ambigs.any (·.any isAmbig) then some .nestedAmbig
      else if t.kernels.any (·.any (!t.kernelItemOk ·)) then some .kernelItem
      else none

/-- The table that a sequence of bytes stands for. -/
def decode (bytes : List UInt8) : Except TableError Table := do
  let (t, rest) ← Decode.table bytes
  if !rest.isEmpty then throw .trailingBytes
  match t.problem? with
  | some cause => throw cause
  | none => return t

end IncrementalLR.Table
