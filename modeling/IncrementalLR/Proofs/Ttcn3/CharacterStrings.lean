import IncrementalLR.Proofs.Lexer.Lookahead
import IncrementalLR.Ttcn3.Scanner

/-!
# Character strings

A character string is a quote, some items and a quote that no other quote follows. An item is a
byte, a backslash with the byte behind it, or two quotes. The first two bytes of an item tell it
from every other item and from the last quote, so a text starts with at most one string. The scanner
finds that string and ends the token behind its last quote; a text that does not start with a string,
such as one whose string has no end, gives no token.
-/

namespace IncrementalLR

namespace ScanCursor

/-- The bytes from the cursor on. -/
def rest (c : ScanCursor) : List UInt8 :=
  match _h : c.lookahead with
  | none => []
  | some b => b :: c.advance.rest
  termination_by c.left
  decreasing_by exact left_advance_lt _h

/-- The cursor some bytes further on. -/
def moved (c : ScanCursor) (n : Nat) : ScanCursor := { c with position := c.position + n }

theorem moved_moved (c : ScanCursor) (m n : Nat) : (c.moved m).moved n = c.moved (m + n) := by
  simp [moved, Nat.add_assoc]

theorem advance_of_lookahead {c : ScanCursor} {b : UInt8} (h : c.lookahead = some b) :
    c.advance = c.moved 1 := by
  unfold advance
  rw [h]
  rfl

theorem rest_of_lookahead_eq_none {c : ScanCursor} (h : c.lookahead = none) : c.rest = [] := by
  rw [rest]
  split
  · rfl
  · rename_i heq
    rw [h] at heq
    cases heq

theorem rest_of_lookahead {c : ScanCursor} {b : UInt8} (h : c.lookahead = some b) :
    c.rest = b :: (c.moved 1).rest := by
  rw [← advance_of_lookahead h, rest]
  split
  · rename_i heq
    rw [h] at heq
    cases heq
  · rename_i heq
    rw [h] at heq
    cases heq
    rfl

theorem lookahead_eq (c : ScanCursor) : c.lookahead = c.rest.head? := by
  cases h : c.lookahead with
  | none => rw [rest_of_lookahead_eq_none h, List.head?_nil]
  | some b => rw [rest_of_lookahead h, List.head?_cons]

theorem rest_moved_one {c : ScanCursor} {b : UInt8} {more : List UInt8} (h : c.rest = b :: more) :
    (c.moved 1).rest = more := by
  have hlook : c.lookahead = some b := by rw [c.lookahead_eq, h, List.head?_cons]
  rw [rest_of_lookahead hlook] at h
  exact (List.cons.inj h).2

theorem rest_moved {c : ScanCursor} {front more : List UInt8} (h : c.rest = front ++ more) :
    (c.moved front.length).rest = more := by
  induction front generalizing c with
  | nil => exact h
  | cons b front ih =>
      have hmore := ih (rest_moved_one h)
      rwa [moved_moved, Nat.add_comm] at hmore

/-- A cursor in front of a byte moves past it. -/
theorem advance_of_rest {c : ScanCursor} {b : UInt8} {more : List UInt8} (h : c.rest = b :: more) :
    c.advance = c.moved 1 := by
  refine advance_of_lookahead (b := b) ?_
  rw [c.lookahead_eq, h, List.head?_cons]

/-- In a text, the bytes from a cursor on are those from its place on. -/
theorem rest_ofText_moved (text : ByteArray) (start n : Nat) :
    ((ofText text start).moved n).rest = text.data.toList.drop (start + n) := by
  generalize hleft : text.size - (start + n) = left
  have hlook : ((ofText text start).moved n).lookahead = text.data.toList[start + n]? := by
    rw [← getElem?_eq_toList]
    exact congrArg (text[start + ·]?) (Nat.zero_add n)
  induction left generalizing n with
  | zero =>
      have hend : text.data.toList.length ≤ start + n := Nat.le_of_sub_eq_zero hleft
      rw [rest_of_lookahead_eq_none (hlook.trans (List.getElem?_eq_none hend)),
        List.drop_eq_nil_of_le hend]
  | succ left ih =>
      have hlt : start + n < text.data.toList.length := by
        change start + n < text.size
        omega
      rw [rest_of_lookahead (hlook.trans (List.getElem?_eq_getElem hlt)), moved_moved,
        ih (n + 1) (by omega) ?_, List.drop_eq_getElem_cons hlt]
      · rfl
      · rw [← getElem?_eq_toList]
        exact congrArg (text[start + ·]?) (Nat.zero_add (n + 1))

end ScanCursor

namespace Ttcn3

def quote : UInt8 := 34

def backslash : UInt8 := 92

/-- What may stand between the quotes of a character string. -/
inductive StringItem where
  | plain (b : UInt8) (hquote : b ≠ quote) (hbackslash : b ≠ backslash)
  | escaped (b : UInt8)
  | doubledQuote

namespace StringItem

def bytes : StringItem → List UInt8
  | plain b _ _ => [b]
  | escaped b => [backslash, b]
  | doubledQuote => [quote, quote]

/-- The items of a text can be told apart from the left. -/
theorem bytes_append_inj {i j : StringItem} {u v : List UInt8} (h : i.bytes ++ u = j.bytes ++ v) :
    i = j ∧ u = v := by
  have hne : quote ≠ backslash := by decide
  cases i <;> cases j <;> simp only [bytes, List.cons_append, List.nil_append, List.cons.injEq] at h
  case plain.plain => exact ⟨by simp [h.1], h.2⟩
  case plain.escaped hbackslash _ => exact absurd h.1 hbackslash
  case plain.doubledQuote hquote _ => exact absurd h.1 hquote
  case escaped.plain hbackslash => exact absurd h.1.symm hbackslash
  case escaped.escaped => exact ⟨by rw [h.2.1], h.2.2⟩
  case escaped.doubledQuote => exact absurd h.1.symm hne
  case doubledQuote.plain hquote _ => exact absurd h.1.symm hquote
  case doubledQuote.escaped => exact absurd h.1 hne
  case doubledQuote.doubledQuote => exact ⟨rfl, h.2.2⟩

end StringItem

/-- The bytes of items, one behind the other. -/
def itemBytes (items : List StringItem) : List UInt8 := items.flatMap StringItem.bytes

theorem itemBytes_cons (i : StringItem) (items : List StringItem) :
    itemBytes (i :: items) = i.bytes ++ itemBytes items :=
  List.flatMap_cons

/-- The bytes behind the first quote go on with these items and the last quote, and then the rest
follows. -/
structure Closes (bytes : List UInt8) (items : List StringItem) (rest : List UInt8) : Prop where
  eq : bytes = itemBytes items ++ quote :: rest
  alone : rest.head? ≠ some quote

/-- The bytes start with the character string of these items, and then the rest follows. -/
structure StartsWithString (bytes : List UInt8) (items : List StringItem) (rest : List UInt8) :
    Prop where
  eq : bytes = quote :: (itemBytes items ++ quote :: rest)
  alone : rest.head? ≠ some quote

namespace Closes

variable {bytes rest : List UInt8} {items : List StringItem}

theorem nil (h : rest.head? ≠ some quote) : Closes (quote :: rest) [] rest := ⟨rfl, h⟩

theorem cons (h : Closes bytes items rest) (i : StringItem) :
    Closes (i.bytes ++ bytes) (i :: items) rest := by
  refine ⟨?_, h.alone⟩
  rw [h.eq, itemBytes_cons, List.append_assoc]

/-- An item is never taken for the last quote. -/
theorem append_ne_close (i : StringItem) (u : List UInt8) (h : rest.head? ≠ some quote) :
    i.bytes ++ u ≠ quote :: rest := by
  intro heq
  cases i <;> simp only [StringItem.bytes, List.cons_append, List.nil_append, List.cons.injEq] at heq
  case plain hquote _ => exact hquote heq.1
  case escaped => exact absurd heq.1 (by decide)
  case doubledQuote =>
      rw [← heq.2] at h
      exact h rfl

/-- The bytes tell the items and the rest. -/
theorem unique {items' : List StringItem} {rest' : List UInt8} (h : Closes bytes items rest)
    (h' : Closes bytes items' rest') : items = items' ∧ rest = rest' := by
  obtain ⟨heq, halone⟩ := h
  obtain ⟨heq', halone'⟩ := h'
  induction items generalizing bytes items' with
  | nil =>
      cases items' with
      | nil =>
          rw [heq] at heq'
          exact ⟨rfl, (List.cons.inj heq').2⟩
      | cons j items' =>
          rw [heq', itemBytes_cons, List.append_assoc] at heq
          exact absurd heq (append_ne_close j _ halone)
  | cons i items ih =>
      cases items' with
      | nil =>
          rw [heq, itemBytes_cons, List.append_assoc] at heq'
          exact absurd heq' (append_ne_close i _ halone')
      | cons j items' =>
          rw [heq, itemBytes_cons, itemBytes_cons, List.append_assoc, List.append_assoc] at heq'
          obtain ⟨rfl, htail⟩ := StringItem.bytes_append_inj heq'
          obtain ⟨rfl, hrest⟩ := ih rfl htail
          exact ⟨rfl, hrest⟩

end Closes

/-- How a text can go on inside a string: it ends, it ends with a lone backslash, the string ends, or
another item follows. -/
inductive Continues : List UInt8 → Prop
  | nothing : Continues []
  | loneBackslash : Continues [backslash]
  | closed (rest : List UInt8) (h : rest.head? ≠ some quote) : Continues (quote :: rest)
  | item (i : StringItem) (more : List UInt8) : Continues (i.bytes ++ more)

theorem continues (bytes : List UInt8) : Continues bytes := by
  match bytes with
  | [] => exact .nothing
  | b :: more =>
      by_cases hquote : b = quote
      · subst hquote
        by_cases hdoubled : more.head? = some quote
        · obtain ⟨more, rfl⟩ := List.head?_eq_some_iff.1 hdoubled
          exact .item .doubledQuote more
        · exact .closed more hdoubled
      · by_cases hbackslash : b = backslash
        · subst hbackslash
          cases more with
          | nil => exact .loneBackslash
          | cons b more => exact .item (.escaped b) more
        · exact .item (.plain b hquote hbackslash) more

/-! ### The steps of the scanner -/

variable {c : ScanCursor} {rest : List UInt8}

theorem lookahead_of_rest {b : UInt8} (h : c.rest = b :: rest) : c.lookahead = some b := by
  rw [c.lookahead_eq, h, List.head?_cons]

theorem scanString_of_lookahead {b : UInt8} (h : c.lookahead = some b) :
    scanString c =
      if b = quote then
        if c.advance.lookahead = some quote then scanString c.advance.advance
        else some c.advance.markEnd
      else if b = backslash then
        if c.advance.atEnd then none else scanString c.advance.advance
      else scanString c.advance := by
  rw [scanString]
  split
  · rename_i heq
    rw [h] at heq
    cases heq
  · rename_i heq
    rw [h] at heq
    cases heq
    rfl

theorem scanString_nothing (h : c.rest = []) : scanString c = none := by
  have hlook : c.lookahead = none := by rw [c.lookahead_eq, h, List.head?_nil]
  rw [scanString]
  split
  · rfl
  · rename_i heq
    rw [hlook] at heq
    cases heq

theorem scanString_loneBackslash (h : c.rest = [backslash]) : scanString c = none := by
  have hend : (c.moved 1).atEnd = true := by
    rw [ScanCursor.atEnd, ScanCursor.lookahead_eq, ScanCursor.rest_moved_one h]
    rfl
  rw [scanString_of_lookahead (lookahead_of_rest h), if_neg (by decide), if_pos rfl,
    ScanCursor.advance_of_rest h, if_pos hend]

theorem scanString_closed (h : c.rest = quote :: rest) (halone : rest.head? ≠ some quote) :
    scanString c = some (c.moved 1).markEnd := by
  have hnext : (c.moved 1).lookahead ≠ some quote := by
    rw [ScanCursor.lookahead_eq, ScanCursor.rest_moved_one h]
    exact halone
  rw [scanString_of_lookahead (lookahead_of_rest h), if_pos rfl, ScanCursor.advance_of_rest h,
    if_neg hnext]

/-- The scanner passes over one item in one step. -/
theorem scanString_item {i : StringItem} (h : c.rest = i.bytes ++ rest) :
    scanString c = scanString (c.moved i.bytes.length) := by
  cases i with
  | plain b hquote hbackslash =>
      rw [scanString_of_lookahead (lookahead_of_rest h), if_neg hquote, if_neg hbackslash,
        ScanCursor.advance_of_rest h]
      rfl
  | escaped b =>
      have hrest : (c.moved 1).rest = b :: rest := ScanCursor.rest_moved_one h
      have hend : ¬ (c.moved 1).atEnd = true := by
        rw [ScanCursor.atEnd, lookahead_of_rest hrest]
        exact Bool.false_ne_true
      rw [scanString_of_lookahead (lookahead_of_rest h), if_neg (by decide), if_pos rfl,
        ScanCursor.advance_of_rest h, if_neg hend, ScanCursor.advance_of_rest hrest,
        ScanCursor.moved_moved]
      rfl
  | doubledQuote =>
      have hrest : (c.moved 1).rest = quote :: rest := ScanCursor.rest_moved_one h
      rw [scanString_of_lookahead (lookahead_of_rest h), if_pos rfl, ScanCursor.advance_of_rest h,
        if_pos (lookahead_of_rest hrest), ScanCursor.advance_of_rest hrest, ScanCursor.moved_moved]
      rfl

/-! ### Whole strings -/

/-- Behind the first quote the scanner finds the string that the text goes on with. -/
theorem scanString_of_closes {items : List StringItem} (h : Closes c.rest items rest) :
    scanString c = some (c.moved ((itemBytes items).length + 1)).markEnd := by
  obtain ⟨heq, halone⟩ := h
  induction items generalizing c with
  | nil => exact scanString_closed heq halone
  | cons i items ih =>
      rw [itemBytes_cons, List.append_assoc] at heq
      have hrest : (c.moved i.bytes.length).rest = itemBytes items ++ quote :: rest :=
        ScanCursor.rest_moved heq
      calc
        scanString c = scanString (c.moved i.bytes.length) := scanString_item heq
        _ = some ((c.moved i.bytes.length).moved ((itemBytes items).length + 1)).markEnd := ih hrest
        _ = some (c.moved ((itemBytes (i :: items)).length + 1)).markEnd := by
          rw [ScanCursor.moved_moved, itemBytes_cons, List.length_append, Nat.add_assoc]

/-- What the scanner finds behind the first quote ends a string. -/
theorem exists_closes_of_scanString {c' : ScanCursor} (h : scanString c = some c') :
    ∃ items rest, Closes c.rest items rest := by
  generalize hlength : c.rest.length = n
  induction n using Nat.strongRecOn generalizing c with
  | _ n ih =>
      have hcontinues := continues c.rest
      generalize hrest : c.rest = bytes at hcontinues hlength
      cases hcontinues with
      | nothing =>
          rw [scanString_nothing hrest] at h
          cases h
      | loneBackslash =>
          rw [scanString_loneBackslash hrest] at h
          cases h
      | closed rest halone => exact ⟨[], rest, .nil halone⟩
      | item i more =>
          have hpos : 0 < i.bytes.length := by cases i <;> exact Nat.succ_pos _
          have hmore : (c.moved i.bytes.length).rest = more := ScanCursor.rest_moved hrest
          rw [scanString_item hrest] at h
          rw [List.length_append] at hlength
          obtain ⟨items, rest, hcloses⟩ := ih more.length (by omega) h (by rw [hmore])
          rw [hmore] at hcloses
          exact ⟨i :: items, rest, hcloses.cons i⟩

theorem StartsWithString.closes {items : List StringItem} (h : StartsWithString c.rest items rest) :
    Closes (c.moved 1).rest items rest :=
  ⟨ScanCursor.rest_moved_one h.eq, h.alone⟩

theorem Closes.startsWithString {more : List UInt8} {items : List StringItem}
    (hc : c.rest = quote :: more) (h : Closes (c.moved 1).rest items rest) :
    StartsWithString c.rest items rest := by
  rw [ScanCursor.rest_moved_one hc] at h
  refine ⟨?_, h.alone⟩
  rw [hc, ← h.eq]

section Scan

variable {charstring : Symbol} {valid : ValidSymbols} {items : List StringItem}

theorem scan_of_startsWithString (hvalid : valid.contains charstring = true)
    (h : StartsWithString c.rest items rest) :
    (charstringScanner charstring).scan c valid
      = some (charstring, (c.moved ((itemBytes items).length + 2)).markEnd) := by
  have hlook : c.lookahead = some 34 := lookahead_of_rest h.eq
  have hscan := scanString_of_closes h.closes
  rw [ScanCursor.moved_moved, Nat.add_comm 1] at hscan
  simp [charstringScanner, hvalid, hlook, ScanCursor.advance_of_rest h.eq, hscan]

theorem exists_startsWithString_of_scan {found : Symbol × ScanCursor}
    (h : (charstringScanner charstring).scan c valid = some found) :
    ∃ items rest, StartsWithString c.rest items rest := by
  rw [charstringScanner] at h
  simp only at h
  split at h
  · cases h
  · rename_i hguard
    have hlook : c.lookahead = some 34 := Decidable.not_not.1 (not_or.1 hguard).2
    obtain ⟨more, hmore⟩ := List.head?_eq_some_iff.1 (c.lookahead_eq ▸ hlook)
    rw [ScanCursor.advance_of_rest hmore] at h
    obtain ⟨d, hd, -⟩ := Option.map_eq_some_iff.1 h
    obtain ⟨items, rest, hcloses⟩ := exists_closes_of_scanString hd
    exact ⟨items, rest, hcloses.startsWithString hmore⟩

end Scan

/-- Where the symbol of character strings is valid, the scanner finds a token just where the text at
the cursor starts with a string. The token ends behind the last quote of the string, and the text
tells the items of the string. -/
theorem charstringScanner_spec (charstring : Symbol) (c : ScanCursor) {valid : ValidSymbols}
    (hvalid : valid.contains charstring = true) :
    (∀ s c', (charstringScanner charstring).scan c valid = some (s, c') ↔
      s = charstring ∧ ∃ items rest, StartsWithString c.rest items rest ∧
        c' = (c.moved ((itemBytes items).length + 2)).markEnd) ∧
    ((charstringScanner charstring).scan c valid = none ↔
      ∀ items rest, ¬ StartsWithString c.rest items rest) ∧
    ∀ items rest items' rest', StartsWithString c.rest items rest →
      StartsWithString c.rest items' rest' → items = items' ∧ rest = rest' := by
  refine ⟨fun s c' => ⟨fun h => ?_, ?_⟩, ⟨fun h items rest hstarts => ?_, fun h => ?_⟩,
    fun items rest items' rest' h h' => h.closes.unique h'.closes⟩
  · obtain ⟨items, rest, hstarts⟩ := exists_startsWithString_of_scan h
    rw [scan_of_startsWithString hvalid hstarts] at h
    cases h
    exact ⟨rfl, items, rest, hstarts, rfl⟩
  · rintro ⟨rfl, items, rest, hstarts, rfl⟩
    exact scan_of_startsWithString hvalid hstarts
  · rw [scan_of_startsWithString hvalid hstarts] at h
    cases h
  · cases hscan : (charstringScanner charstring).scan c valid with
    | none => rfl
    | some found =>
        obtain ⟨items, rest, hstarts⟩ := exists_startsWithString_of_scan hscan
        exact absurd hstarts (h items rest)

/-- In the text `"a\"""" b` the second quote is escaped, the next two stand for one, and the string
ends before the blank. -/
theorem charstringScanner_spec_quotes :
    (⟨SymbolSet.singleton ⟨1⟩, 2, false⟩ : ValidSymbols).contains ⟨1⟩ = true ∧
    (charstringScanner ⟨1⟩).scan (.ofText ⟨#[34, 97, 92, 34, 34, 34, 34, 32, 98]⟩ 0)
        ⟨SymbolSet.singleton ⟨1⟩, 2, false⟩
      = some (⟨1⟩, ((ScanCursor.ofText ⟨#[34, 97, 92, 34, 34, 34, 34, 32, 98]⟩ 0).moved 7).markEnd) := by
  have hvalid : (⟨SymbolSet.singleton ⟨1⟩, 2, false⟩ : ValidSymbols).contains ⟨1⟩ = true := by
    decide
  refine ⟨hvalid, ((charstringScanner_spec ⟨1⟩ _ hvalid).1 _ _).2 ⟨rfl,
    [.plain 97 (by decide) (by decide), .escaped 34, .doubledQuote], [32, 98], ⟨?_, ?_⟩, rfl⟩⟩
  · exact (ScanCursor.rest_ofText_moved _ 0 0).trans (by decide)
  · decide

end Ttcn3

end IncrementalLR
