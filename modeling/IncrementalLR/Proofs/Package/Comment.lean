import IncrementalLR.Package.Module
import Mathlib.Data.List.Chain

/-!
# The comment at the head of a module

Block comments nest, so a delimiter inside the listing would open a comment that nothing closes, or
close the comment too early. A text without delimiters side by side leaves the nesting as it is. Such
a text is the listing once blanks are put between the signs of its delimiters: a blank is no part of
a delimiter, so what parts the delimiters of one kind makes none of the other kind.
-/

namespace IncrementalLR.Package

/-! ### Reading a comment -/

/-- What follows a block comment, read from inside it. Every comment that opens in it has to close
first; the number tells how many are open. -/
def closing? : Nat → List Char → Option (List Char)
  | openInside, x :: y :: rest =>
    if x = '/' ∧ y = '*' then closing? (openInside + 1) rest
    else if x = '*' ∧ y = '/' then
      match openInside with
      | 0 => some rest
      | openInside + 1 => closing? openInside rest
    else closing? openInside (y :: rest)
  | _, [_] => none
  | _, [] => none

/-- What follows the block comment with which a text begins. -/
def afterComment? : List Char → Option (List Char)
  | '/' :: '*' :: rest => closing? 0 rest
  | _ => none

/-- Two characters that open or close a comment. -/
def IsDelimiter (x y : Char) : Prop := (x = '/' ∧ y = '*') ∨ (x = '*' ∧ y = '/')

instance (x y : Char) : Decidable (IsDelimiter x y) :=
  inferInstanceAs (Decidable ((x = '/' ∧ y = '*') ∨ (x = '*' ∧ y = '/')))

/-- No two characters side by side open or close a comment. -/
def Plain (text : List Char) : Prop := text.IsChain fun x y => ¬ IsDelimiter x y

instance (text : List Char) : Decidable (Plain text) :=
  inferInstanceAs (Decidable (text.IsChain fun x y => ¬ IsDelimiter x y))

/-- A comment goes on over a plain text, up to the delimiter behind it. -/
theorem closing?_of_plain {text rest : List Char} (h : Plain (text ++ ['*'])) :
    closing? 0 (text ++ '*' :: '/' :: rest) = some rest := by
  induction text with
  | nil => simp [closing?]
  | cons x text ih =>
      obtain ⟨hx, htext⟩ := List.isChain_cons.1 h
      have hstep : ∀ y more, ¬ IsDelimiter x y →
          closing? 0 (x :: y :: more) = closing? 0 (y :: more) := by
        intro y more hne
        obtain ⟨hopen, hclose⟩ := not_or.1 hne
        rw [closing?, if_neg hopen, if_neg hclose]
      rw [← ih htext]
      cases text with
      | nil => exact hstep '*' ('/' :: rest) (hx '*' rfl)
      | cons y text => exact hstep y (text ++ '*' :: '/' :: rest) (hx y rfl)

/-! ### Plain texts -/

theorem plain_of_no_delimiter {text : List Char} (hopen : ¬ ['/', '*'] <:+: text)
    (hclose : ¬ ['*', '/'] <:+: text) : Plain text := by
  refine List.isChain_iff_forall_rel_of_append_cons_cons.2 fun x y before after heq => ?_
  rintro (⟨rfl, rfl⟩ | ⟨rfl, rfl⟩)
  · exact hopen ⟨before, after, by simp [heq]⟩
  · exact hclose ⟨before, after, by simp [heq]⟩

/-- The character is part of no delimiter. -/
def IsNeutral (c : Char) : Prop := c ≠ '/' ∧ c ≠ '*'

instance (c : Char) : Decidable (IsNeutral c) := inferInstanceAs (Decidable (c ≠ '/' ∧ c ≠ '*'))

theorem isNeutral_of_all {last : Option Char} (h : last.all (fun c => decide (IsNeutral c)) = true) :
    ∀ c ∈ last, IsNeutral c := by
  intro c hc
  rw [Option.mem_def.1 hc] at h
  simpa using h

theorem IsNeutral.not_isDelimiter_left {c : Char} (h : IsNeutral c) (y : Char) :
    ¬ IsDelimiter c y := by
  rintro (⟨rfl, _⟩ | ⟨rfl, _⟩)
  · exact h.1 rfl
  · exact h.2 rfl

theorem IsNeutral.not_isDelimiter_right {c : Char} (h : IsNeutral c) (x : Char) :
    ¬ IsDelimiter x c := by
  rintro (⟨_, rfl⟩ | ⟨_, rfl⟩)
  · exact h.2 rfl
  · exact h.1 rfl

/-- Plain texts can be put together where one of them has a neutral character at the seam. -/
theorem Plain.append {a b : List Char} (ha : Plain a) (hb : Plain b)
    (hseam : (∀ c ∈ a.getLast?, IsNeutral c) ∨ ∀ c ∈ b.head?, IsNeutral c) : Plain (a ++ b) := by
  refine List.isChain_append.2 ⟨ha, hb, fun x hx y hy => ?_⟩
  rcases hseam with hseam | hseam
  · exact (hseam x hx).not_isDelimiter_left y
  · exact (hseam y hy).not_isDelimiter_right x

/-! ### Blanks between delimiters -/

section SpaceOut

variable (a b : Char)

theorem head?_spaceOut (text : List Char) : (spaceOut a b text).head? = text.head? := by
  fun_cases spaceOut a b text <;> rfl

theorem spaceOut_cons_ne_nil (x : Char) (rest : List Char) : spaceOut a b (x :: rest) ≠ [] := by
  intro h
  have hhead := head?_spaceOut a b (x :: rest)
  rw [h] at hhead
  cases hhead

theorem getLast?_spaceOut (text : List Char) :
    (spaceOut a b text).getLast? = text.getLast? := by
  fun_induction spaceOut a b text with
  | case1 x y rest _ ih =>
      cases rest with
      | nil => rfl
      | cons z rest =>
          have hne := spaceOut_cons_ne_nil a b z rest
          rw [List.getLast?_cons_of_ne_nil (by simp), List.getLast?_cons_of_ne_nil (by simp),
            List.getLast?_cons_of_ne_nil hne, ih]
          rfl
  | case2 x y rest _ ih =>
      rw [List.getLast?_cons_of_ne_nil (spaceOut_cons_ne_nil a b y rest), ih]
      rfl
  | case3 => rfl

/-- Blanks join only what was side by side before. -/
theorem isChain_spaceOut {R : Char → Char → Prop} (hleft : ∀ x, R x ' ') (hright : ∀ y, R ' ' y)
    {text : List Char} (h : text.IsChain R) : (spaceOut a b text).IsChain R := by
  fun_induction spaceOut a b text with
  | case1 x y rest _ ih =>
      obtain ⟨hy, hrest⟩ := List.isChain_cons.1 (List.isChain_cons.1 h).2
      refine List.isChain_cons_cons.2 ⟨hleft x, List.isChain_cons_cons.2 ⟨hright y, ?_⟩⟩
      refine List.isChain_cons.2 ⟨fun z hz => hy z ?_, ih hrest⟩
      rwa [head?_spaceOut] at hz
  | case2 x y rest _ ih =>
      obtain ⟨hx, hrest⟩ := List.isChain_cons.1 h
      refine List.isChain_cons.2 ⟨fun z hz => hx z ?_, ih hrest⟩
      rwa [head?_spaceOut] at hz
  | case3 => exact h

/-- The characters are side by side no more. -/
theorem isChain_ne_spaceOut (hne : a ≠ b) (ha : a ≠ ' ') (hb : b ≠ ' ') (text : List Char) :
    (spaceOut a b text).IsChain fun x y => ¬ (x = a ∧ y = b) := by
  fun_induction spaceOut a b text with
  | case1 x y rest hxy ih =>
      refine List.isChain_cons_cons.2 ⟨fun h => hb h.2.symm, List.isChain_cons_cons.2
        ⟨fun h => ha h.1.symm, List.isChain_cons.2 ⟨fun z _ h => ?_, ih⟩⟩⟩
      exact hne (h.1.symm.trans hxy.2)
  | case2 x y rest hxy ih =>
      refine List.isChain_cons.2 ⟨fun z hz h => ?_, ih⟩
      rw [head?_spaceOut, List.head?_cons, Option.mem_def, Option.some.injEq] at hz
      exact hxy ⟨h.1, hz.trans h.2⟩
  | case3 text htext =>
      match text, htext with
      | [], _ => exact .nil
      | [x], _ => exact .singleton x
      | x :: y :: rest, htext => exact absurd rfl (htext x y rest)

end SpaceOut

theorem plain_withoutDelimiters (text : String) : Plain (withoutDelimiters text).toList := by
  rw [withoutDelimiters, String.toList_ofList]
  have hopen : (spaceOut '*' '/' (spaceOut '/' '*' text.toList)).IsChain
      fun x y => ¬ (x = '/' ∧ y = '*') :=
    isChain_spaceOut '*' '/' (by simp) (by simp)
      (isChain_ne_spaceOut '/' '*' (by decide) (by decide) (by decide) text.toList)
  have hclose := isChain_ne_spaceOut '*' '/' (by decide) (by decide) (by decide)
    (spaceOut '/' '*' text.toList)
  refine List.isChain_iff_forall_rel_of_append_cons_cons.2 fun x y before after heq => not_or.2 ⟨?_, ?_⟩
  · exact List.isChain_iff_forall_rel_of_append_cons_cons.1 hopen heq
  · exact List.isChain_iff_forall_rel_of_append_cons_cons.1 hclose heq

theorem getLast?_unlines {lines : List String} {c : Char} (h : c ∈ (unlines lines).toList.getLast?) :
    c = '\n' := by
  rcases List.eq_nil_or_concat lines with rfl | ⟨front, line, rfl⟩
  · cases h
  · rw [unlines, List.concat_eq_append, List.foldl_append, List.foldl_cons, List.foldl_nil,
      String.toList_append, List.getLast?_append] at h
    simpa using h.symm

/-! ### The head of a module -/

theorem toList_moduleText (t : Table) (tableFile : String) : (moduleText t tableFile).toList
    = (beforeListing t).toList ++ ((listingText t).toList ++
      '*' :: '/' :: (moduleBody t tableFile).toList) := by
  have hlast : "*/".toList = ['*', '/'] := by decide
  unfold moduleText headComment
  simp only [String.toList_append, hlast, List.append_assoc, List.cons_append, List.nil_append]

theorem plain_listingText (t : Table) : Plain ((listingText t).toList ++ ['*']) := by
  refine (plain_withoutDelimiters _).append (.singleton '*') (.inl fun c hc => ?_)
  rw [withoutDelimiters, String.toList_ofList, getLast?_spaceOut, getLast?_spaceOut] at hc
  rw [getLast?_unlines hc]
  decide

/-- In front of the listing there is the delimiter that opens the comment, and no other. -/
theorem exists_beforeListing {t : Table} (h : Plain t.name.toList) :
    ∃ inside, (beforeListing t).toList = '/' :: '*' :: inside ∧
      ∀ text, Plain text → Plain (inside ++ text) := by
  refine ⟨(beforeListing t).toList.drop 2, ?_, fun text htext => ?_⟩
  · unfold beforeListing
    simp
  · unfold beforeListing
    simp only [String.toList_append, List.append_assoc]
    rw [List.drop_append_of_le_length (by decide)]
    simp only [List.append_assoc]
    -- the name stands between a blank and the end of a line
    refine Plain.append (by decide +kernel) (h.append (Plain.append (by decide +kernel)
      (Plain.append (by decide +kernel) htext (.inl ?_)) (.inl ?_)) (.inr fun c hc => ?_)) (.inl ?_)
    · exact isNeutral_of_all (by decide +kernel)
    · exact isNeutral_of_all (by decide +kernel)
    · obtain rfl : '\n' = c := by simpa using hc
      decide
    · exact isNeutral_of_all (by decide +kernel)

/-- The comment that opens a module closes just behind the listing, where the body of the module
begins, unless the name of the grammar holds a delimiter itself. -/
theorem afterComment?_moduleText {t : Table} (hopen : ¬ ['/', '*'] <:+: t.name.toList)
    (hclose : ¬ ['*', '/'] <:+: t.name.toList) (tableFile : String) :
    (moduleText t tableFile).toList
      = (beforeListing t).toList ++ ((listingText t).toList ++
        '*' :: '/' :: (moduleBody t tableFile).toList) ∧
    afterComment? (moduleText t tableFile).toList = some (moduleBody t tableFile).toList := by
  obtain ⟨inside, hinside, hplain⟩ := exists_beforeListing (plain_of_no_delimiter hopen hclose)
  refine ⟨toList_moduleText t tableFile, ?_⟩
  rw [toList_moduleText, hinside, List.cons_append, List.cons_append, afterComment?,
    ← List.append_assoc]
  refine closing?_of_plain ?_
  rw [List.append_assoc]
  exact hplain _ (plain_listingText t)

/-- A table of a token with two delimiters that overlap, and halves of them in the name. -/
def delimitersTable : Table :=
  { (default : Table) with
    name := "*a/", symbols := #[⟨"/*/", .terminal, true, false, false⟩] }

theorem afterComment?_delimitersTable :
    ¬ ['/', '*'] <:+: delimitersTable.name.toList ∧
    ¬ ['*', '/'] <:+: delimitersTable.name.toList ∧
    (moduleText delimitersTable "a.bin").toList
      = (beforeListing delimitersTable).toList ++ ((listingText delimitersTable).toList ++
        '*' :: '/' :: (moduleBody delimitersTable "a.bin").toList) ∧
    afterComment? (moduleText delimitersTable "a.bin").toList
      = some (moduleBody delimitersTable "a.bin").toList := by
  have hopen : ¬ ['/', '*'] <:+: delimitersTable.name.toList := by decide
  have hclose : ¬ ['*', '/'] <:+: delimitersTable.name.toList := by decide
  exact ⟨hopen, hclose, afterComment?_moduleText hopen hclose "a.bin"⟩

end IncrementalLR.Package
