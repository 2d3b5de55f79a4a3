/-!
# Checking UTF-8

Whether bytes are the UTF-8 form of a text, and if not, where and how they fail: at some place there
are a few bytes that start no character, or the bytes end within a character.
-/

namespace IncrementalLR.Text

structure Utf8Error where
  /-- the number of bytes that are well formed -/
  validUpTo : Nat
  /-- the number of bytes that fail behind them; none if the bytes end too early -/
  errorLength : Option Nat
  deriving DecidableEq, Repr, Inhabited

def Utf8Error.message (e : Utf8Error) : String :=
  match e.errorLength with
  | some n => s!"invalid utf-8 sequence of {n} bytes from index {e.validUpTo}"
  | none => s!"incomplete utf-8 byte sequence from index {e.validUpTo}"

/-- The bytes that may follow a first byte: the range of the second byte and the number of bytes
behind it. -/
def followers? (b : UInt8) : Option ((UInt8 × UInt8) × Nat) :=
  if 0xC2 ≤ b ∧ b ≤ 0xDF then some ((0x80, 0xBF), 0)
  else if b = 0xE0 then some ((0xA0, 0xBF), 1)
  else if b = 0xED then some ((0x80, 0x9F), 1)
  else if 0xE1 ≤ b ∧ b ≤ 0xEF then some ((0x80, 0xBF), 1)
  else if b = 0xF0 then some ((0x90, 0xBF), 2)
  else if 0xF1 ≤ b ∧ b ≤ 0xF3 then some ((0x80, 0xBF), 2)
  else if b = 0xF4 then some ((0x80, 0x8F), 2)
  else none

/-- The ranges of the bytes behind a first byte. -/
def followerRanges (second : UInt8 × UInt8) (more : Nat) : List (UInt8 × UInt8) :=
  second :: List.replicate more (0x80, 0xBF)

/-- Reads bytes in ranges. Gives the rest, or the length of what fails; `seen` bytes of the
character come before. -/
def readFollowers : List (UInt8 × UInt8) → Nat → List UInt8 → Except (Option Nat) (List UInt8)
  | [], _, bytes => .ok bytes
  | _ :: _, _, [] => .error none
  | (lo, hi) :: ranges, seen, b :: bytes =>
    if lo ≤ b ∧ b ≤ hi then readFollowers ranges (seen + 1) bytes else .error (some seen)

/-- The first place where bytes fail to be UTF-8; the fuel is their number. -/
def findUtf8Error : Nat → Nat → List UInt8 → Option Utf8Error
  | _, _, [] => none
  | 0, _, _ => none
  | fuel + 1, place, b :: bytes =>
    if b < 0x80 then findUtf8Error fuel (place + 1) bytes
    else
      match followers? b with
      | none => some ⟨place, some 1⟩
      | some (second, more) =>
        match readFollowers (followerRanges second more) 1 bytes with
        | .ok rest => findUtf8Error fuel (place + 2 + more) rest
        | .error length => some ⟨place, length⟩

/-- The text whose UTF-8 form the bytes are. -/
def ofUtf8 (bytes : ByteArray) : Except Utf8Error String :=
  match String.fromUTF8? bytes with
  | some text => .ok text
  | none => .error ((findUtf8Error bytes.size 0 bytes.data.toList).getD ⟨0, none⟩)

end IncrementalLR.Text
