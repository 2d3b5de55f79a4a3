/-!
# Positions in a text

A point is a row and a column, both counted from zero; columns count bytes. A length is a number of
bytes together with the rows and columns they cover. Nodes keep lengths relative to their own start,
so an unchanged node can stand at another offset. Adding lengths appends the texts they measure.
-/

namespace IncrementalLR

structure Point where
  row : Nat
  column : Nat
  deriving DecidableEq, Repr, Inhabited

namespace Point

def zero : Point := ⟨0, 0⟩

/-- Row and column separated by a colon. -/
def render (p : Point) : String := s!"{p.row}:{p.column}"

/-- Points are ordered by row and then by column. -/
def compare (p q : Point) : Ordering :=
  (Ord.compare p.row q.row).then (Ord.compare p.column q.column)

end Point

structure Length where
  bytes : Nat
  extent : Point
  deriving DecidableEq, Repr, Inhabited

namespace Length

def zero : Length := ⟨0, Point.zero⟩

/-- The length after one more byte; a newline starts the next row. -/
def advance (len : Length) (b : UInt8) : Length :=
  if b = 10 then ⟨len.bytes + 1, ⟨len.extent.row + 1, 0⟩⟩
  else ⟨len.bytes + 1, ⟨len.extent.row, len.extent.column + 1⟩⟩

/-- The length of a sequence of bytes. -/
def ofList (bytes : List UInt8) : Length := bytes.foldl advance zero

/-- The length of a text. -/
def ofBytes (bytes : ByteArray) : Length := ofList bytes.data.toList

/-- The length of one text followed by another. -/
def add (a b : Length) : Length :=
  ⟨a.bytes + b.bytes,
    if b.extent.row > 0 then ⟨a.extent.row + b.extent.row, b.extent.column⟩
    else ⟨a.extent.row, a.extent.column + b.extent.column⟩⟩

/-- What is left of `a` behind its leading part `b`. -/
def sub (a b : Length) : Length :=
  ⟨a.bytes - b.bytes,
    if a.extent.row > b.extent.row then ⟨a.extent.row - b.extent.row, a.extent.column⟩
    else ⟨0, a.extent.column - b.extent.column⟩⟩

instance : Add Length := ⟨add⟩
instance : Sub Length := ⟨sub⟩

/-- `a - b`, or zero when `b` is not shorter than `a`. -/
def monus (a b : Length) : Length := if a.bytes > b.bytes then a - b else zero

end Length

/-- A half-open stretch of a text, in bytes and in points. -/
structure Range where
  startByte : Nat
  endByte : Nat
  startPoint : Point
  endPoint : Point
  deriving DecidableEq, Repr, Inhabited

namespace Range

def isEmpty (r : Range) : Bool := r.startByte == r.endByte

def contains (r inner : Range) : Bool :=
  r.startByte ≤ inner.startByte && inner.endByte ≤ r.endByte

def render (r : Range) : String :=
  s!"[{r.startByte}, {r.endByte}) {r.startPoint.render} to {r.endPoint.render}"

end Range

end IncrementalLR
