import IncrementalLR.Text.Position

/-!
# Inputs

A text is read through an input. Either it is at hand as a whole, or a callback is asked for bytes of it
and answers with as many as it likes. The last answer is kept, and serves all offsets within it.
-/

namespace IncrementalLR.Text

theorem extract_min_size (text : ByteArray) (start stop : Nat) :
    text.extract start (min stop text.size) = text.extract start stop := by
  have h := ByteArray.extract_extract (a := text) (i := 0) (j := text.size) (k := start) (l := stop)
  rw [ByteArray.extract_zero_size, Nat.zero_add, Nat.zero_add] at h
  exact h.symm

/-- The bytes stand in the text from the offset on. -/
def StandsAt (text : ByteArray) (offset : Nat) (bytes : ByteArray) : Prop :=
  text.extract offset (offset + bytes.size) = bytes

namespace StandsAt

variable {text bytes more : ByteArray} {offset : Nat}

theorem extract (text : ByteArray) (offset stop : Nat) :
    StandsAt text offset (text.extract offset stop) := by
  unfold StandsAt
  rw [ByteArray.size_extract, ← extract_min_size text offset stop]
  by_cases hle : offset ≤ min stop text.size
  · rw [Nat.add_sub_cancel' hle]
  · rw [Nat.sub_eq_zero_of_le (by omega), Nat.add_zero, ByteArray.extract_same,
      ByteArray.extract_eq_empty_iff.2 (by omega)]

theorem empty : StandsAt text offset ByteArray.empty := by
  rw [← ByteArray.extract_same (b := text) (i := offset)]
  exact extract text offset offset

theorem le_size (h : StandsAt text offset bytes) (hbytes : 0 < bytes.size) :
    offset + bytes.size ≤ text.size := by
  have hsize := congrArg ByteArray.size h
  rw [ByteArray.size_extract] at hsize
  omega

theorem append (h : StandsAt text offset bytes) (hmore : StandsAt text (offset + bytes.size) more) :
    StandsAt text offset (bytes ++ more) := by
  unfold StandsAt at h hmore ⊢
  rw [ByteArray.size_append, ← Nat.add_assoc,
    ByteArray.extract_eq_extract_append_extract (offset + bytes.size) (Nat.le_add_right _ _)
      (Nat.le_add_right _ _), h, hmore]

theorem extract_of_le (h : StandsAt text offset bytes) (start stop : Nat) :
    StandsAt text (offset + start) (bytes.extract start stop) := by
  unfold StandsAt at h
  rw [← h, ByteArray.extract_extract]
  exact extract text (offset + start) _

theorem getElem?_eq (h : StandsAt text offset bytes) {i : Nat} (hi : i < bytes.size) :
    bytes[i]? = text[offset + i]? := by
  have hle := h.le_size (Nat.zero_lt_of_lt hi)
  unfold StandsAt at h
  have hsize : i < (text.extract offset (offset + bytes.size)).size := by
    rw [h]
    exact hi
  rw [getElem?_pos bytes i hi, getElem?_pos text (offset + i) (by omega),
    ← ByteArray.getElem_extract hsize]
  simp only [h]

end StandsAt

/-- A callback that gives a text in pieces. It is told what it was asked for before, so that no two of
its answers need be of one size. No answer in the text is empty. -/
structure Pieces where
  text : ByteArray
  answer : List Nat → Nat → ByteArray
  standsAt : ∀ asked offset, StandsAt text offset (answer asked offset)
  size_pos : ∀ asked offset, offset < text.size → 0 < (answer asked offset).size

/-- The text in pieces of which each has one byte more than its size says. -/
def Pieces.ofSizes (text : ByteArray) (size : List Nat → Nat → Nat) : Pieces where
  text := text
  answer asked offset := text.extract offset (offset + (size asked offset + 1))
  standsAt _ offset := .extract text offset _
  size_pos asked offset h := by
    rw [ByteArray.size_extract]
    omega

/-- A text that is read in pieces, with the last piece and where it starts. -/
structure ChunkedInput where
  pieces : Pieces
  /-- the offsets that the callback was asked for, the last one first -/
  asked : List Nat
  start : Nat
  chunk : ByteArray
  standsAt : StandsAt pieces.text start chunk

namespace ChunkedInput

def ofPieces (pieces : Pieces) : ChunkedInput := ⟨pieces, [], 0, ByteArray.empty, .empty⟩

/-- The bytes from the offset on. The callback is asked unless the last piece has the offset. -/
def read (c : ChunkedInput) (offset : Nat) : ByteArray × ChunkedInput :=
  if c.start ≤ offset ∧ offset < c.start + c.chunk.size then
    (c.chunk.extract (offset - c.start) c.chunk.size, c)
  else
    let chunk := c.pieces.answer c.asked offset
    (chunk, ⟨c.pieces, offset :: c.asked, offset, chunk, c.pieces.standsAt c.asked offset⟩)

theorem pieces_read (c : ChunkedInput) (offset : Nat) : (c.read offset).2.pieces = c.pieces := by
  unfold read
  split
  · rfl
  · rfl

theorem standsAt_read (c : ChunkedInput) (offset : Nat) :
    StandsAt c.pieces.text offset (c.read offset).1 := by
  unfold read
  split
  · rename_i hcached
    have h := c.standsAt.extract_of_le (offset - c.start) c.chunk.size
    rw [Nat.add_sub_cancel' hcached.1] at h
    exact h
  · exact c.pieces.standsAt c.asked offset

theorem size_read_pos (c : ChunkedInput) {offset : Nat} (h : offset < c.pieces.text.size) :
    0 < (c.read offset).1.size := by
  unfold read
  split
  · rename_i hcached
    rw [ByteArray.size_extract]
    omega
  · exact c.pieces.size_pos c.asked offset h

end ChunkedInput

inductive Input where
  | whole (text : ByteArray)
  | chunked (c : ChunkedInput)

namespace Input

def text : Input → ByteArray
  | whole text => text
  | chunked c => c.pieces.text

/-- Bytes from the offset on; none behind the end of the text. -/
def read (input : Input) (offset : Nat) : ByteArray × Input :=
  match input with
  | whole text => (text.extract offset text.size, input)
  | chunked c => ((c.read offset).1, chunked (c.read offset).2)

@[simp] theorem text_read (input : Input) (offset : Nat) : (input.read offset).2.text = input.text := by
  cases input with
  | whole text => rfl
  | chunked c => exact congrArg Pieces.text (c.pieces_read offset)

theorem standsAt_read (input : Input) (offset : Nat) :
    StandsAt input.text offset (input.read offset).1 := by
  cases input with
  | whole text => exact .extract text offset text.size
  | chunked c => exact c.standsAt_read offset

theorem size_read_pos (input : Input) {offset : Nat} (h : offset < input.text.size) :
    0 < (input.read offset).1.size := by
  cases input with
  | whole text =>
      change offset < text.size at h
      change 0 < (text.extract offset text.size).size
      rw [ByteArray.size_extract]
      omega
  | chunked c => exact c.size_read_pos h

/-- Goes on with all bytes from an offset on, piece by piece. -/
def foldFrom {α : Type} (f : α → ByteArray → α) (a : α) (input : Input) (offset : Nat) : α × Input :=
  let answer := input.read offset
  if _h : answer.1.size = 0 then (a, answer.2)
  else foldFrom f (f a answer.1) answer.2 (offset + answer.1.size)
  termination_by input.text.size - offset
  decreasing_by
    have hpos : 0 < (input.read offset).1.size := Nat.pos_of_ne_zero _h
    have hle := (input.standsAt_read offset).le_size hpos
    rw [text_read]
    omega

def remainingLength (input : Input) (offset : Nat) : Length × Input :=
  input.foldFrom (fun length piece => piece.data.toList.foldl Length.advance length) Length.zero offset

end Input

end IncrementalLR.Text
