import IncrementalLR.Table.Error

/-!
# The stored form of a table

A table is stored as a sequence of sections behind a mark and a version. Numbers are stored with
their least byte first; a list is stored behind its length, a text behind the length of its bytes.
What has no field or no word token is stored as the largest number.
-/

namespace IncrementalLR.Table

namespace Encode

def u8 (v : UInt8) : List UInt8 := [v]

def u16 (v : UInt16) : List UInt8 := [v.toUInt8, (v >>> 8).toUInt8]

def u32 (v : UInt32) : List UInt8 :=
  [v.toUInt8, (v >>> 8).toUInt8, (v >>> 16).toUInt8, (v >>> 24).toUInt8]

def i32 (v : Int32) : List UInt8 := u32 v.toUInt32

def size (n : Nat) : List UInt8 := u32 n.toUInt32

def text (s : String) : List UInt8 :=
  let bytes := s.toUTF8.data
  size bytes.size ++ bytes.toList

/-- The elements of a list behind its length. -/
def list {α : Type} (element : α → List UInt8) (xs : List α) : List UInt8 :=
  size xs.length ++ xs.flatMap element

def symbol (s : Symbol) : List UInt8 := u16 s.id

def symbols (xs : Array Symbol) : List UInt8 := list symbol xs.toList

/-- An optional number; the largest stands for none. -/
def optional (v : Option UInt16) : List UInt8 := u16 (v.getD 65535)

def kindTag : SymbolKind → UInt8
  | .terminal => 0
  | .external => 1
  | .nonterminal => 2
  | .auxiliary => 3

def flags (visible named extra : Bool) : UInt8 :=
  (if visible then 1 else 0) + (if named then 2 else 0) + (if extra then 4 else 0)

def symbolInfo (info : SymbolInfo) : List UInt8 :=
  text info.name ++ u8 (kindTag info.kind) ++ u8 (flags info.visible info.named info.extra)

def step (s : Symbol × Option FieldId) : List UInt8 := symbol s.1 ++ optional (s.2.map (·.id))

def production (p : ProductionInfo) : List UInt8 :=
  symbol p.lhs ++ i32 p.dynamicPrecedence ++ size p.rhs.size ++
    (p.rhs.toList.zip p.fields.toList).flatMap step

def actionParts : Action → UInt8 × UInt32
  | .error => (0, 0)
  | .accept => (1, 0)
  | .shift target => (2, target)
  | .reduce production => (3, production)
  | .ambig entry => (4, entry)
  | .goto target => (5, target)

def action (a : Action) : List UInt8 := u8 (actionParts a).1 ++ u32 (actionParts a).2

def actions (xs : Array Action) : List UInt8 := list action xs.toList

def fragile (pair : StateId × ProductionId) : List UInt8 := u32 pair.1 ++ u32 pair.2

def breakdown (entry : StateId × Symbol × StateId) : List UInt8 :=
  u32 entry.1 ++ symbol entry.2.1 ++ u32 entry.2.2

def token (t : TokenDef) : List UInt8 :=
  symbol t.symbol ++ text t.pattern ++ u8 (if t.literal then 1 else 0)

def keyword (k : String × Symbol) : List UInt8 := text k.1 ++ symbol k.2

def reasonTag : ResolutionReason → UInt8
  | .precedence => 0
  | .associativity => 1
  | .nonAssociative => 2
  | .declaredConflict => 3
  | .policy => 4

def resolution (r : Resolution) : List UInt8 :=
  u32 r.state ++ symbol r.lookahead ++ action r.kept ++ list action r.discarded ++
    u8 (reasonTag r.reason)

def kernelItem (item : KernelItem) : List UInt8 := u32 item.production ++ u16 item.dot

def kernel (items : Array KernelItem) : List UInt8 := list kernelItem items.toList

/-- The mark at the front of a stored table. -/
def magic : List UInt8 := [76, 82, 84, 66]

def table (t : Table) : List UInt8 :=
  magic ++ u32 formatVersion ++ text t.name ++
  (list symbolInfo t.symbols.toList ++ (size t.terminalCount ++ symbol t.startSymbol ++
  (list text t.fields.toList ++
  (list production t.productions.toList ++
  (size t.stateCount ++ (t.actions.toList.flatMap action ++
  (list actions t.ambigs.toList ++
  (list fragile t.fragile ++
  (list breakdown t.breakdown ++
  (list symbols t.lexModes.toList ++ (t.stateModes.toList.flatMap u16 ++
  (list token t.lexical.tokens.toList ++
  (list text t.lexical.skips.toList ++
  (Encode.optional (t.lexical.word.map (·.id)) ++
  (list keyword t.lexical.keywords.toList ++
  (symbols t.extras ++ (symbols t.externals ++
  (list resolution t.resolutions.toList ++
  (t.kernels.toList.flatMap kernel ++
  u32 t.startState)))))))))))))))))))

end Encode

/-- The bytes that stand for a table. -/
def encode (t : Table) : List UInt8 := Encode.table t

end IncrementalLR.Table
