/-!
# Sets of bytes
-/

namespace IncrementalLR.Pattern

structure ByteSet where
  bits : BitVec 256
  deriving DecidableEq, Repr, Inhabited

namespace ByteSet

def empty : ByteSet := ⟨0⟩

def contains (s : ByteSet) (b : UInt8) : Bool := s.bits.getLsbD b.toNat

def singleton (b : UInt8) : ByteSet := ⟨1#256 <<< b.toNat⟩

def union (s t : ByteSet) : ByteSet := ⟨s.bits ||| t.bits⟩

def inter (s t : ByteSet) : ByteSet := ⟨s.bits &&& t.bits⟩

def diff (s t : ByteSet) : ByteSet := ⟨s.bits &&& ~~~t.bits⟩

def symmDiff (s t : ByteSet) : ByteSet := ⟨s.bits ^^^ t.bits⟩

def compl (s : ByteSet) : ByteSet := ⟨~~~s.bits⟩

/-- The bytes from `lo` to `hi`, both included. -/
def range (lo hi : UInt8) : ByteSet :=
  ⟨(BitVec.allOnes 256 <<< lo.toNat) &&& (BitVec.allOnes 256 >>> (255 - hi.toNat))⟩

/-- The union of ranges. -/
def ofRanges (ranges : List (UInt8 × UInt8)) : ByteSet :=
  ranges.foldl (fun s r => s.union (range r.1 r.2)) empty

/-- The set with both cases of each of its letters. -/
def foldCase (s : ByteSet) : ByteSet :=
  let upper := s.inter (range 65 90)
  let lower := s.inter (range 97 122)
  s.union (ByteSet.union ⟨upper.bits <<< 32⟩ ⟨lower.bits >>> 32⟩)

def isEmpty (s : ByteSet) : Bool := s.bits == 0

def digits : ByteSet := range 48 57

def spaces : ByteSet := ofRanges [(9, 13), (32, 32)]

def wordBytes : ByteSet := ofRanges [(48, 57), (65, 90), (95, 95), (97, 122)]

/-- The set of a class name in double brackets. -/
def ofName? : String → Option ByteSet
  | "alnum" => some (ofRanges [(48, 57), (65, 90), (97, 122)])
  | "alpha" => some (ofRanges [(65, 90), (97, 122)])
  | "ascii" => some (range 0 127)
  | "blank" => some (ofRanges [(9, 9), (32, 32)])
  | "cntrl" => some (ofRanges [(0, 31), (127, 127)])
  | "digit" => some digits
  | "graph" => some (range 33 126)
  | "lower" => some (range 97 122)
  | "print" => some (range 32 126)
  | "punct" => some (ofRanges [(33, 47), (58, 64), (91, 96), (123, 126)])
  | "space" => some spaces
  | "upper" => some (range 65 90)
  | "word" => some wordBytes
  | "xdigit" => some (ofRanges [(48, 57), (65, 70), (97, 102)])
  | _ => none

end ByteSet

end IncrementalLR.Pattern
