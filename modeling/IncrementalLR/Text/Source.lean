import IncrementalLR.Text.Input

/-!
# Sources

One call of the lexer looks at the bytes from its place on through a source, which takes them out of
the input a few at a time and keeps them, so that a byte can be looked at again.
-/

namespace IncrementalLR.Text

/-- The number of bytes that are taken at most from one answer of the input. -/
def fillSize : Nat := 64

/-- The bytes that were looked at from a place on, and the input that gives more. -/
structure Source where
  input : Input
  start : Nat
  bytes : ByteArray
  /-- the input has no more bytes -/
  atEnd : Bool
  standsAt : StandsAt input.text start bytes
  size_le : atEnd = true → input.text.size ≤ start + bytes.size

namespace Source

def ofInput (input : Input) (start : Nat) : Source :=
  ⟨input, start, ByteArray.empty, false, .empty, Bool.noConfusion⟩

def stop (s : Source) : Nat := s.start + s.bytes.size

def refill (s : Source) : Source :=
  let answer := s.input.read s.stop
  { input := answer.2
    start := s.start
    bytes := s.bytes ++ answer.1.extract 0 fillSize
    atEnd := answer.1.size == 0
    standsAt := by
      rw [Input.text_read]
      exact s.standsAt.append ((s.input.standsAt_read s.stop).extract_of_le 0 fillSize)
    size_le := by
      intro hempty
      rw [Input.text_read, ByteArray.size_append]
      have hend : ¬ s.stop < s.input.text.size := fun hlt =>
        Nat.ne_of_gt (s.input.size_read_pos hlt) (eq_of_beq hempty)
      unfold stop at hend
      omega }

theorem stop_lt_refill {s : Source} (h : s.refill.atEnd = false) : s.stop < s.refill.stop := by
  have hpos : (s.input.read s.stop).1.size ≠ 0 := ne_of_beq_false h
  have hsize : (s.refill).bytes.size = s.bytes.size + min fillSize (s.input.read s.stop).1.size := by
    change (s.bytes ++ (s.input.read s.stop).1.extract 0 fillSize).size = _
    rw [ByteArray.size_append, ByteArray.size_extract, Nat.sub_zero]
  unfold stop at hpos hsize ⊢
  rw [hsize]
  change s.start + s.bytes.size < s.start + _
  unfold fillSize
  omega

/-- Takes bytes until a place was passed. -/
def fillTo (s : Source) (pos : Nat) : Source :=
  if pos < s.stop ∨ s.atEnd = true then s
  else if _h : s.refill.atEnd = true then s.refill
  else s.refill.fillTo pos
  termination_by pos + 1 - s.stop
  decreasing_by
    have hlt := stop_lt_refill (Bool.eq_false_iff.2 _h)
    omega

/-- The byte at a place; none in front of the source and behind the end of the text. -/
def byte (s : Source) (pos : Nat) : Option UInt8 × Source :=
  if pos < s.start then (none, s)
  else ((s.fillTo pos).bytes[pos - s.start]?, s.fillTo pos)

def slice (s : Source) (start stop : Nat) : ByteArray :=
  s.bytes.extract (start - s.start) (stop - s.start)

/-- The same text from the same place on, of which no less was looked at. -/
structure Extends (s s' : Source) : Prop where
  text : s'.input.text = s.input.text
  start : s'.start = s.start
  stop : s.stop ≤ s'.stop

theorem Extends.refl (s : Source) : s.Extends s := ⟨rfl, rfl, Nat.le_refl _⟩

theorem Extends.trans {s s' s'' : Source} (h : s.Extends s') (h' : s'.Extends s'') : s.Extends s'' :=
  ⟨h'.text.trans h.text, h'.start.trans h.start, Nat.le_trans h.stop h'.stop⟩

theorem extends_refill (s : Source) : s.Extends s.refill := by
  refine ⟨s.input.text_read s.stop, rfl, ?_⟩
  change s.start + s.bytes.size ≤ s.start + (s.bytes ++ _).size
  rw [ByteArray.size_append]
  omega

theorem extends_fillTo (s : Source) (pos : Nat) : s.Extends (s.fillTo pos) := by
  fun_induction fillTo s pos with
  | case1 s _ => exact .refl s
  | case2 s _ _ => exact s.extends_refill
  | case3 s _ _ ih => exact s.extends_refill.trans ih

/-- The place was passed then, or all of the text was looked at. -/
theorem passes_fillTo (s : Source) (pos : Nat) :
    pos < (s.fillTo pos).stop ∨ s.input.text.size ≤ (s.fillTo pos).stop := by
  fun_induction fillTo s pos with
  | case1 s hdone => exact hdone.imp_right s.size_le
  | case2 s _ hend =>
      have hle := s.refill.size_le hend
      rw [s.extends_refill.text] at hle
      exact .inr hle
  | case3 s _ _ ih => rwa [s.extends_refill.text] at ih

theorem lt_stop_fillTo (s : Source) {pos : Nat} (h : pos < s.input.text.size) :
    pos < (s.fillTo pos).stop :=
  (s.passes_fillTo pos).elim id (Nat.lt_of_lt_of_le h)

theorem extends_byte (s : Source) (pos : Nat) : s.Extends (s.byte pos).2 := by
  unfold byte
  split
  · exact .refl s
  · exact s.extends_fillTo pos

theorem lt_size_of_byte (s : Source) {pos : Nat} {b : UInt8} (h : (s.byte pos).1 = some b) :
    pos < s.input.text.size := by
  unfold byte at h
  split at h
  · cases h
  · obtain ⟨hpos, _⟩ := getElem?_eq_some_iff.1 h
    have hle := (s.fillTo pos).standsAt.le_size (Nat.zero_lt_of_lt hpos)
    rw [(s.extends_fillTo pos).text, (s.extends_fillTo pos).start] at hle
    omega

theorem byte_eq (s : Source) {pos : Nat} (h : s.start ≤ pos) :
    (s.byte pos).1 = s.input.text[pos]? := by
  have hextends := s.extends_fillTo pos
  have hstands := (s.fillTo pos).standsAt
  rw [hextends.text, hextends.start] at hstands
  unfold byte
  rw [if_neg (Nat.not_lt_of_le h)]
  by_cases hpos : pos - s.start < (s.fillTo pos).bytes.size
  · have hget := hstands.getElem?_eq hpos
    rwa [Nat.add_sub_cancel' h] at hget
  · have hsize : ¬ pos < s.input.text.size := by
      intro hlt
      have hpassed := s.lt_stop_fillTo hlt
      unfold stop at hpassed
      rw [hextends.start] at hpassed
      omega
    rw [getElem?_neg (s.fillTo pos).bytes _ hpos, getElem?_neg s.input.text _ hsize]

theorem fillTo_fillTo (s : Source) {pos pos' : Nat} (h : pos ≤ pos') :
    (s.fillTo pos).fillTo pos' = s.fillTo pos' := by
  fun_induction fillTo s pos with
  | case1 s _ => rfl
  | case2 s hmore hend =>
      have hmore' : ¬ (pos' < s.stop ∨ s.atEnd = true) := fun hdone =>
        hmore (hdone.imp_left (Nat.lt_of_le_of_lt h))
      rw [fillTo, if_pos (.inr hend), fillTo, if_neg hmore', dif_pos hend]
  | case3 s hmore hend ih =>
      have hmore' : ¬ (pos' < s.stop ∨ s.atEnd = true) := fun hdone =>
        hmore (hdone.imp_left (Nat.lt_of_le_of_lt h))
      rw [ih, fillTo.eq_def s pos', if_neg hmore', dif_neg hend]

/-- A byte does not depend on the bytes in front of it that were looked at before, and neither does
the source behind it. So it makes no difference that a scanner pulls a byte only after all bytes in
front of it. -/
theorem byte_byte (s : Source) {pos pos' : Nat} (hstart : s.start ≤ pos) (h : pos ≤ pos') :
    (s.byte pos).2.byte pos' = s.byte pos' := by
  have hfirst : (s.byte pos).2 = s.fillTo pos := by
    unfold byte
    rw [if_neg (Nat.not_lt_of_le hstart)]
  have hsame : (s.fillTo pos).start = s.start := (s.extends_fillTo pos).start
  have hstart' : ¬ pos' < s.start := Nat.not_lt_of_le (Nat.le_trans hstart h)
  unfold byte at hfirst ⊢
  rw [hfirst, hsame, if_neg hstart', if_neg hstart', s.fillTo_fillTo h]

/-- The place behind a byte that was found was passed. -/
theorem lt_stop_byte (s : Source) {pos : Nat} (h : pos < s.input.text.size) (hstart : s.start ≤ pos) :
    pos < (s.byte pos).2.stop := by
  unfold byte
  rw [if_neg (Nat.not_lt_of_le hstart)]
  exact s.lt_stop_fillTo h

theorem slice_eq (s : Source) {start stop : Nat} (hstart : s.start ≤ start)
    (hstop : min stop s.input.text.size ≤ s.stop) :
    s.slice start stop = s.input.text.extract start stop := by
  have hbytes : s.input.text.extract s.start s.stop = s.bytes := s.standsAt
  unfold slice
  rw [← hbytes, ByteArray.extract_extract, Nat.add_sub_cancel' hstart,
    ← extract_min_size _ start stop, ← extract_min_size _ start (min _ _)]
  by_cases hle : s.start ≤ stop
  · congr 1
    omega
  · rw [ByteArray.extract_eq_empty_iff.2 (by omega), ByteArray.extract_eq_empty_iff.2 (by omega)]

end Source

end IncrementalLR.Text
