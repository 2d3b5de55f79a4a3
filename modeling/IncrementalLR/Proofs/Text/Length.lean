import Mathlib.Tactic.Ext
import IncrementalLR.Text.Position

/-!
# Lengths of texts

Lengths add up as texts are appended, and what is added can be taken away again. So a length is all
that has to be known of a text to place what comes behind it.
-/

namespace IncrementalLR.Length

@[ext]
theorem ext {a b : Length} (hbytes : a.bytes = b.bytes) (hrow : a.extent.row = b.extent.row)
    (hcolumn : a.extent.column = b.extent.column) : a = b := by
  obtain ⟨bytes, row, column⟩ := a
  obtain ⟨bytes', row', column'⟩ := b
  simp_all

@[simp] theorem bytes_zero : zero.bytes = 0 := rfl

@[simp] theorem bytes_add (a b : Length) : (a + b).bytes = a.bytes + b.bytes := rfl

theorem extent_add (a b : Length) : (a + b).extent
    = if b.extent.row > 0 then ⟨a.extent.row + b.extent.row, b.extent.column⟩
      else ⟨a.extent.row, a.extent.column + b.extent.column⟩ := rfl

theorem row_add (a b : Length) : (a + b).extent.row = a.extent.row + b.extent.row := by
  rw [extent_add]
  by_cases hrow : b.extent.row > 0
  · rw [if_pos hrow]
  · rw [if_neg hrow]
    have hzero : b.extent.row = 0 := by omega
    rw [hzero, Nat.add_zero]

theorem column_add (a b : Length) : (a + b).extent.column
    = if b.extent.row > 0 then b.extent.column else a.extent.column + b.extent.column := by
  rw [extent_add]
  by_cases hrow : b.extent.row > 0
  · rw [if_pos hrow, if_pos hrow]
  · rw [if_neg hrow, if_neg hrow]

@[simp] theorem zero_add (a : Length) : zero + a = a := by
  ext
  · simp
  · rw [row_add]
    exact Nat.zero_add _
  · rw [column_add]
    by_cases hrow : a.extent.row > 0
    · rw [if_pos hrow]
    · rw [if_neg hrow]
      exact Nat.zero_add _

@[simp] theorem add_zero (a : Length) : a + zero = a := by
  ext
  · rfl
  · rw [row_add]
    rfl
  · rw [column_add, if_neg (show ¬ zero.extent.row > 0 from Nat.lt_irrefl 0)]
    rfl

theorem add_assoc (a b c : Length) : a + b + c = a + (b + c) := by
  ext
  · simp only [bytes_add, Nat.add_assoc]
  · simp only [row_add, Nat.add_assoc]
  · simp only [column_add, row_add]
    by_cases hc : c.extent.row > 0
    · have hsum : b.extent.row + c.extent.row > 0 := by omega
      rw [if_pos hc, if_pos hsum, if_pos hc]
    · have hsum : b.extent.row + c.extent.row > 0 ↔ b.extent.row > 0 := by omega
      simp only [if_neg hc, hsum]
      by_cases hb : b.extent.row > 0
      · rw [if_pos hb, if_pos hb]
      · rw [if_neg hb, if_neg hb, Nat.add_assoc]

theorem add_sub_cancel_left (a b : Length) : a + b - a = b := by
  change (a + b).sub a = b
  rw [sub, row_add, column_add]
  by_cases hb : b.extent.row > 0
  · rw [if_pos (by omega), if_pos hb]
    ext
    · exact Nat.add_sub_cancel_left _ _
    · exact Nat.add_sub_cancel_left _ _
    · rfl
  · rw [if_neg (by omega), if_neg hb]
    have hzero : b.extent.row = 0 := by omega
    ext
    · exact Nat.add_sub_cancel_left _ _
    · exact hzero.symm
    · exact Nat.add_sub_cancel_left _ _

/-! ### Lengths of bytes -/

@[simp] theorem ofList_nil : ofList [] = zero := rfl

theorem advance_eq_add (len : Length) (b : UInt8) : len.advance b = len + zero.advance b := by
  by_cases hb : b = 10
  · simp only [advance, if_pos hb]
    rfl
  · simp only [advance, if_neg hb]
    rfl

theorem foldl_advance (len : Length) (bytes : List UInt8) :
    bytes.foldl advance len = len + ofList bytes := by
  induction bytes generalizing len with
  | nil => exact (add_zero len).symm
  | cons b bytes ih =>
      have hcons : ofList (b :: bytes) = zero.advance b + ofList bytes := ih (zero.advance b)
      rw [List.foldl_cons, ih, advance_eq_add, add_assoc, hcons]

theorem ofList_append (a b : List UInt8) : ofList (a ++ b) = ofList a + ofList b := by
  rw [ofList, List.foldl_append, foldl_advance]
  rfl

@[simp] theorem bytes_ofList (a : List UInt8) : (ofList a).bytes = a.length := by
  induction a with
  | nil => rfl
  | cons b a ih =>
      have hone : (ofList [b]).bytes = 1 := by
        by_cases hb : b = 10 <;> simp [ofList, advance, hb]
      rw [← List.singleton_append, ofList_append, bytes_add, ih, hone, List.length_append,
        List.length_singleton]

/-- The rest of a text behind its leading part. -/
theorem monus_ofList_append (a b : List UInt8) : (ofList (a ++ b)).monus (ofList a) = ofList b := by
  rw [monus, ofList_append, add_sub_cancel_left]
  by_cases hb : (ofList a + ofList b).bytes > (ofList a).bytes
  · rw [if_pos hb]
  · rw [if_neg hb]
    rw [bytes_add, bytes_ofList b] at hb
    have hnil : b = [] := List.length_eq_zero_iff.1 (by omega)
    rw [hnil, ofList_nil]

end IncrementalLR.Length
