import IncrementalLR.Proofs.Lexer.Tokens
import IncrementalLR.Proofs.Text.Length

/-!
# What a token depends on

A token tells how far behind it the text was looked at. No more of the text than that decides it:
from any other place that the same bytes follow, in this or in another text, the lexer gives the same
token. The bound counts the byte at its end, since a run that is sure to die on the next byte still
asks whether there is one.
-/

namespace IncrementalLR

theorem getElem?_eq_toList (text : ByteArray) (i : Nat) : text[i]? = text.data.toList[i]? := by
  by_cases h : i < text.size
  · rw [getElem?_pos text i h, ByteArray.getElem_eq_getElem_data, Array.getElem?_toList,
      Array.getElem?_eq_getElem h]
  · rw [getElem?_neg text i h, Array.getElem?_toList, Array.getElem?_eq_none (Nat.le_of_not_lt h)]

/-- The bytes from a place of one text on are those from a place of another on, up to some byte
behind the places and including that byte. Both texts may end before it. -/
def ReadsAlike (text₁ : ByteArray) (p : Nat) (text₂ : ByteArray) (q n : Nat) : Prop :=
  ∀ i ≤ n, text₁[p + i]? = text₂[q + i]?

namespace ReadsAlike

variable {text₁ text₂ : ByteArray} {p q n : Nat}

theorem mono (h : ReadsAlike text₁ p text₂ q n) {m : Nat} (hle : m ≤ n) :
    ReadsAlike text₁ p text₂ q m :=
  fun i hi => h i (Nat.le_trans hi hle)

theorem shift (h : ReadsAlike text₁ p text₂ q n) {m k : Nat} (hle : k + m ≤ n) :
    ReadsAlike text₁ (p + k) text₂ (q + k) m := by
  intro i hi
  rw [Nat.add_assoc, Nat.add_assoc]
  exact h (k + i) (by omega)

theorem lt_size_iff (h : ReadsAlike text₁ p text₂ q n) {i : Nat} (hi : i ≤ n) :
    p + i < text₁.size ↔ q + i < text₂.size := by
  have hread := h i hi
  rw [getElem?_eq_toList, getElem?_eq_toList] at hread
  have hend : text₁.data.toList.length ≤ p + i ↔ text₂.data.toList.length ≤ q + i := by
    rw [← List.getElem?_eq_none_iff, ← List.getElem?_eq_none_iff, hread]
  exact not_iff_not.1 (by rw [Nat.not_lt, Nat.not_lt]; exact hend)

theorem ge_size_iff (h : ReadsAlike text₁ p text₂ q n) {i : Nat} (hi : i ≤ n) :
    p + i ≥ text₁.size ↔ q + i ≥ text₂.size := by
  rw [ge_iff_le, ge_iff_le, ← Nat.not_lt, ← Nat.not_lt, h.lt_size_iff hi]

/-- Behind the end of a text there is nothing more to read. -/
theorem extend (h : ReadsAlike text₁ p text₂ q n) (hend : text₁.size ≤ p + n) (m : Nat) :
    ReadsAlike text₁ p text₂ q m := by
  intro i _
  by_cases hi : i ≤ n
  · exact h i hi
  · have hend' := (h.ge_size_iff (Nat.le_refl n)).1 hend
    rw [getElem?_neg text₁ _ (by omega), getElem?_neg text₂ _ (by omega)]

theorem getElem_eq (h : ReadsAlike text₁ p text₂ q n) {i : Nat} (hi : i ≤ n)
    (h₁ : p + i < text₁.size) (h₂ : q + i < text₂.size) : text₁[p + i] = text₂[q + i] := by
  have hread := h i hi
  rw [getElem?_pos text₁ _ h₁, getElem?_pos text₂ _ h₂] at hread
  exact Option.some.inj hread

theorem toList_extract (h : ReadsAlike text₁ p text₂ q n) {i k : Nat} (hik : i + k ≤ n + 1) :
    (text₁.extract (p + i) (p + i + k)).data.toList
      = (text₂.extract (q + i) (q + i + k)).data.toList := by
  rw [ByteArray.data_extract, ByteArray.data_extract, Array.toList_extract, Array.toList_extract,
    List.extract_eq_take_drop, List.extract_eq_take_drop, Nat.add_sub_cancel_left,
    Nat.add_sub_cancel_left]
  apply List.ext_getElem?
  intro j
  by_cases hj : j < k
  · rw [List.getElem?_take_of_lt hj, List.getElem?_take_of_lt hj, List.getElem?_drop,
      List.getElem?_drop, ← getElem?_eq_toList, ← getElem?_eq_toList, Nat.add_assoc, Nat.add_assoc]
    exact h (i + j) (by omega)
  · rw [List.getElem?_take_eq_none (by omega), List.getElem?_take_eq_none (by omega)]

theorem lengthBetween_eq (h : ReadsAlike text₁ p text₂ q n) {i k : Nat} (hik : i + k ≤ n + 1) :
    Lexer.lengthBetween text₁ (p + i) (p + i + k)
      = Lexer.lengthBetween text₂ (q + i) (q + i + k) := by
  rw [Lexer.lengthBetween, Lexer.lengthBetween, Length.ofBytes, Length.ofBytes, h.toList_extract hik]

end ReadsAlike

/-- How far behind the place where it was found a token looked at the text. -/
def Lexed.reach (token : Lexed) : Nat :=
  token.padding.bytes + token.size.bytes + token.lookaheadBytes

/-- The bytes up to the one under the cursor that the scanner leaves are all that its token depends
on. -/
def ExternalScanner.IsLocal (scanner : ExternalScanner) : Prop :=
  ∀ (text₁ text₂ : ByteArray) (p q : Nat) (valid : ValidSymbols) (s : Symbol) (c : ScanCursor),
    scanner.scan (.ofText text₁ p) valid = some (s, c) →
      ReadsAlike text₁ p text₂ q c.position →
        ∃ d, scanner.scan (.ofText text₂ q) valid = some (s, d) ∧ d.position = c.position ∧
          d.tokenSize = c.tokenSize

namespace Lexer

variable {lexer : Lexer} {text₁ text₂ : ByteArray} {p q : Nat}

/-! ### One run -/

theorem wordSize_add (valid : SymbolSet) (size : Nat) (found : Found) (pattern : Nat) :
    (found.add lexer valid size pattern).wordSize
      = if lexer.word.any (·.2 == pattern) then size else found.wordSize := by
  have hmarked : (if lexer.word.any (·.2 == pattern) then { found with wordSize := size }
      else found).wordSize = if lexer.word.any (·.2 == pattern) then size else found.wordSize :=
    apply_ite Found.wordSize _ _ _
  rw [Found.add, ← hmarked]
  cases lexer.patterns[pattern]? with
  | none => rfl
  | some kind => exact (apply_ite Found.wordSize _ _ _).trans (ite_self _)

theorem wordSize_addAll_le (lexer : Lexer) (valid : SymbolSet) {size : Nat} {found : Found}
    (h : found.wordSize ≤ size) (patterns : List Nat) :
    (found.addAll lexer valid size patterns).wordSize ≤ size := by
  rw [Found.addAll]
  split
  · exact h
  · induction patterns generalizing found with
    | nil => exact h
    | cons pattern patterns ih =>
        rw [List.foldl_cons]
        apply ih
        rw [wordSize_add]
        split
        · exact Nat.le_refl size
        · exact h

/-- A run looks at least at the bytes it is past, and at all bytes of the word it finds. -/
theorem le_runFrom (lexer : Lexer) (text : ByteArray) (valid : SymbolSet) (start i : Nat)
    (state : Pattern.Automaton.Run) {found : Found} (h : found.wordSize ≤ i) :
    i ≤ (lexer.runFrom text valid start i state found).2 ∧
      (lexer.runFrom text valid start i state found).1.wordSize
        ≤ (lexer.runFrom text valid start i state found).2 := by
  fun_induction lexer.runFrom text valid start i state found with
  | case1 => exact ⟨Nat.le_refl _, h⟩
  | case2 i => exact ⟨Nat.le_succ i, Nat.le_succ_of_le h⟩
  | case3 i state found hlt next _ ih =>
      obtain ⟨hle, hword⟩ := ih (Nat.le_succ_of_le (lexer.wordSize_addAll_le valid h _))
      exact ⟨Nat.le_of_succ_le hle, hword⟩
  | case4 i =>
      exact ⟨Nat.le_succ i, Nat.le_succ_of_le (lexer.wordSize_addAll_le valid h _)⟩

theorem runFrom_eq_of_readsAlike (valid : SymbolSet) (i : Nat) (state : Pattern.Automaton.Run)
    {found : Found} (hword : found.wordSize ≤ i)
    (h : ReadsAlike text₁ p text₂ q (lexer.runFrom text₁ valid p i state found).2) :
    lexer.runFrom text₂ valid q i state found = lexer.runFrom text₁ valid p i state found := by
  have hi := (lexer.le_runFrom text₁ valid p i state hword).1
  fun_induction lexer.runFrom text₁ valid p i state found with
  | case1 i state found hlt next hdead hdies =>
      have hlt' := (h.lt_size_iff hi).1 hlt
      rw [runFrom, dif_pos hlt', ← h.getElem_eq hi hlt hlt', if_pos hdead, if_pos hdies]
  | case2 i state found hlt next hdead hdies =>
      have hlt' := (h.lt_size_iff hi).1 hlt
      rw [runFrom, dif_pos hlt', ← h.getElem_eq hi hlt hlt', if_pos hdead, if_neg hdies]
  | case3 i state found hlt next hdead ih =>
      have hlt' := (h.lt_size_iff hi).1 hlt
      have hword' := Nat.le_succ_of_le (lexer.wordSize_addAll_le valid hword next.matched)
      rw [runFrom, dif_pos hlt', ← h.getElem_eq hi hlt hlt', if_neg hdead]
      exact ih hword' h (lexer.le_runFrom text₁ valid p (i + 1) next hword').1
  | case4 i state found hge =>
      have hge' := fun hlt' => hge ((h.lt_size_iff hi).2 hlt')
      rw [runFrom, dif_neg hge']

theorem preferWord_eq_of_readsAlike (valid : SymbolSet) {found : Found} {n : Nat}
    (hword : found.wordSize ≤ n) (h : ReadsAlike text₁ p text₂ q n) :
    lexer.preferWord text₂ valid q found = lexer.preferWord text₁ valid p found := by
  have hspelled := h.toList_extract (i := 0) (k := found.wordSize) (by omega)
  rw [Nat.add_zero, Nat.add_zero] at hspelled
  rw [preferWord, preferWord, hspelled]

/-- A run reads no more than it says. -/
theorem run_eq_of_readsAlike (lexer : Lexer) (mode : LexMode)
    (h : ReadsAlike text₁ p text₂ q (lexer.run text₁ p mode).2) :
    lexer.run text₂ q mode = lexer.run text₁ p mode := by
  let valid := (lexer.validSymbols mode).set
  let first := lexer.runFrom text₁ valid p 0 (lexer.automaton.begin none) {}
  have hword : first.1.wordSize ≤ first.2 :=
    (lexer.le_runFrom text₁ valid p 0 (lexer.automaton.begin none) (Nat.le_refl 0)).2
  have hrun := runFrom_eq_of_readsAlike valid 0 (lexer.automaton.begin none) (Nat.le_refl 0) h
  rw [run, run, hrun]
  exact congrArg (·, first.2) (preferWord_eq_of_readsAlike valid hword h)

/-! ### Skips -/

theorem gives_true (lexer : Lexer) : lexer.Gives fun _ => True :=
  ⟨fun _ _ _ => trivial, fun _ _ _ => trivial, fun _ _ _ => trivial, fun _ _ => trivial⟩

theorem fits_of_run (lexer : Lexer) (text : ByteArray) (start : Nat) (mode : LexMode) (c : Candidate)
    (hc : (lexer.run text start mode).1 = some c) : Fits (fun _ => True) text start c :=
  fits_of_mem_run (gives_true lexer) hc

theorem le_skipFrom (lexer : Lexer) (text : ByteArray) (mode : LexMode) (fuel start examined : Nat) :
    start ≤ (lexer.skipFrom text mode fuel start examined).1 ∧
      examined ≤ (lexer.skipFrom text mode fuel start examined).2.2 := by
  induction fuel generalizing start examined with
  | zero => exact ⟨Nat.le_refl _, Nat.le_refl _⟩
  | succ fuel ih =>
      rw [skipFrom]
      obtain ⟨best, seen⟩ := lexer.run text start mode
      have hmax : examined ≤ max examined (start + seen) := Nat.le_max_left _ _
      obtain _ | ⟨_ | _, size⟩ := best
      · exact ⟨Nat.le_refl _, hmax⟩
      · exact ⟨Nat.le_refl _, hmax⟩
      · obtain ⟨hstart, hexamined⟩ := ih (start + size) (max examined (start + seen))
        exact ⟨Nat.le_trans (Nat.le_add_right _ _) hstart, Nat.le_trans hmax hexamined⟩

/-- With fuel for what is left of each text, skips are passed over alike. -/
theorem skipFrom_eq_of_readsAlike (mode : LexMode) {n : Nat} (h : ReadsAlike text₁ p text₂ q n)
    (fuel₁ fuel₂ a x : Nat) (hfuel₁ : text₁.size - (p + a) < fuel₁)
    (hfuel₂ : text₂.size - (q + a) < fuel₂)
    (hexamined : (lexer.skipFrom text₁ mode fuel₁ (p + a) (p + x)).2.2 ≤ p + n) :
    ∃ b found y, lexer.skipFrom text₁ mode fuel₁ (p + a) (p + x) = (p + b, found, p + y) ∧
      lexer.skipFrom text₂ mode fuel₂ (q + a) (q + x) = (q + b, found, q + y) := by
  induction fuel₁ generalizing fuel₂ a x with
  | zero => exact absurd hfuel₁ (Nat.not_lt_zero _)
  | succ fuel₁ ih =>
      obtain ⟨fuel₂, rfl⟩ := Nat.exists_eq_succ_of_ne_zero (Nat.ne_of_gt (Nat.zero_lt_of_lt hfuel₂))
      have hseen : (lexer.run text₁ (p + a) mode).2 + a ≤ n := by
        rw [skipFrom] at hexamined
        generalize lexer.run text₁ (p + a) mode = result at hexamined ⊢
        obtain ⟨best, seen⟩ := result
        obtain _ | ⟨_ | _, size⟩ := best
        · simp only at hexamined ⊢
          omega
        · simp only at hexamined ⊢
          omega
        · have hle := (lexer.le_skipFrom text₁ mode fuel₁ (p + a + size)
            (max (p + x) (p + a + seen))).2
          simp only at hexamined ⊢
          omega
      have hrun := lexer.run_eq_of_readsAlike mode
        (h.shift (k := a) (m := (lexer.run text₁ (p + a) mode).2) (by omega))
      have hfits := lexer.fits_of_run text₁ (p + a) mode
      have hfits' := lexer.fits_of_run text₂ (q + a) mode
      rw [hrun] at hfits'
      rw [skipFrom] at hexamined
      rw [skipFrom, skipFrom, hrun]
      generalize lexer.run text₁ (p + a) mode = result at hexamined hfits hfits' ⊢
      obtain ⟨best, seen⟩ := result
      simp only [Nat.add_assoc, Nat.add_max_add_left] at hexamined hfits hfits' ⊢
      obtain _ | ⟨⟨s, literal⟩ | _, size⟩ := best
      · exact ⟨a, none, max x (a + seen), rfl, rfl⟩
      · exact ⟨a, some (s, size), max x (a + seen), rfl, rfl⟩
      · have hfit := hfits _ rfl
        have hfit' := hfits' _ rfl
        have hpos := hfit.pos
        have hle := hfit.le
        have hle' := hfit'.le
        simp only at hpos hle hle'
        exact ih fuel₂ (a + size) (max x (a + seen)) (by omega) (by omega) hexamined

/-- Skips stay where they are or end inside the text. -/
theorem skipFrom_le (lexer : Lexer) (text : ByteArray) (mode : LexMode) (fuel start examined : Nat) :
    (lexer.skipFrom text mode fuel start examined).1 ≤ max start text.size ∧
      ∀ s size, (lexer.skipFrom text mode fuel start examined).2.1 = some (s, size) →
        (lexer.skipFrom text mode fuel start examined).1 + size ≤ text.size := by
  induction fuel generalizing start examined with
  | zero => exact ⟨Nat.le_max_left _ _, by simp [skipFrom]⟩
  | succ fuel ih =>
      have hfits := lexer.fits_of_run text start mode
      rw [skipFrom]
      generalize lexer.run text start mode = result at hfits ⊢
      obtain ⟨best, seen⟩ := result
      obtain _ | ⟨⟨s, literal⟩ | _, size⟩ := best
      · exact ⟨Nat.le_max_left _ _, by simp⟩
      · refine ⟨Nat.le_max_left _ _, ?_⟩
        intro s' size' heq
        rw [← (Prod.mk.inj (Option.some.inj heq)).2]
        exact (hfits _ rfl).le
      · have hfit := (hfits _ rfl).le
        obtain ⟨hle, hfound⟩ := ih (start + size) (max examined (start + seen))
        simp only at hfit ⊢
        exact ⟨by omega, hfound⟩

/-! ### Tokens -/

theorem bytes_lengthBetween (text : ByteArray) (start stop : Nat) :
    (lengthBetween text start stop).bytes = min stop text.size - start := by
  have hlength : text.data.toList.length = text.size := rfl
  rw [lengthBetween, Length.ofBytes, Length.bytes_ofList, ByteArray.data_extract,
    Array.toList_extract, List.extract_eq_take_drop, List.length_take, List.length_drop, hlength]
  omega

/-- Wherever the lexer is asked, and whatever the scanner does, only the end of input is empty. -/
theorem bytes_lex_pos (lexer : Lexer) (text : ByteArray) (position : Nat) (mode : LexMode)
    (scanner : Option ExternalScanner)
    (h : (lexer.lex text position mode scanner).symbol ≠ Symbol.eof) :
    0 < (lexer.lex text position mode scanner).size.bytes := by
  have hpos : ∀ (start size examined : Nat) (s : Symbol) (mode : LexMode), start < text.size →
      0 < size → 0 < (tokenOver text position start size examined s mode).size.bytes := by
    intro start size examined s mode hstart hsize
    rw [tokenOver, bytes_lengthBetween]
    omega
  obtain ⟨_, _, hfound⟩ :=
    @skipFrom_spec lexer _ text (gives_true lexer) mode (text.size - position + 1) position position
  rw [lex_eq_tokenOver] at h ⊢
  generalize lexer.skipFrom text mode (text.size - position + 1) position position = skipped
    at h hfound ⊢
  obtain ⟨start, found, examined⟩ := skipped
  cases found with
  | some entry =>
      obtain ⟨_, hsize, hle⟩ := hfound entry.1 entry.2 rfl
      exact hpos _ _ _ _ _ (Nat.lt_of_lt_of_le (Nat.lt_add_of_pos_right hsize) hle) hsize
  | none =>
      have hfallback := fallsBack_fallback lexer text start examined mode scanner
      simp only at h ⊢
      generalize lexer.fallback text start examined mode scanner = last at h hfallback ⊢
      cases hfallback with
      | eof => exact absurd rfl h
      | external hstart hscan | otherExternal hstart _ hscan =>
          exact hpos _ _ _ _ _ hstart ((gives_true lexer).of_scanExternal hscan).2
      | other hstart _ hrun =>
          exact hpos _ _ _ _ _ hstart (fits_of_mem_run (gives_true lexer) hrun).pos
      | unexpected hstart | otherUnexpected hstart => exact hpos _ _ _ _ _ hstart Nat.one_pos

/-- Where a token looked, the texts read alike, and the same bytes make the same token. -/
theorem tokenOver_eq_of_readsAlike {b size seen : Nat} {s : Symbol} {mode : LexMode}
    (hstart : p + b ≤ max p text₁.size) (hstop : p + b + size ≤ max (p + b) text₁.size)
    (h : ReadsAlike text₁ p text₂ q (tokenOver text₁ p (p + b) size (p + seen) s mode).reach) :
    ReadsAlike text₁ p text₂ q (max seen (b + size + 1)) ∧
      tokenOver text₂ q (q + b) size (q + seen) s mode
        = tokenOver text₁ p (p + b) size (p + seen) s mode := by
  have hreach : (tokenOver text₁ p (p + b) size (p + seen) s mode).reach
      = max seen (b + size + 1) := by
    rw [Lexed.reach, tokenOver, bytes_lengthBetween, bytes_lengthBetween]
    simp only
    omega
  rw [hreach] at h
  have hpadding := h.lengthBetween_eq (i := 0) (k := b) (by omega)
  have hwidth := h.lengthBetween_eq (i := b) (k := size) (by omega)
  rw [Nat.add_zero, Nat.add_zero] at hpadding
  refine ⟨h, ?_⟩
  rw [tokenOver, tokenOver, hpadding, hwidth,
    show q + seen - (q + b + size) = p + seen - (p + b + size) by omega]

variable {scanner : Option ExternalScanner}

theorem scanExternal_eq_of_readsAlike (hlocal : ∀ x ∈ scanner, x.IsLocal) {mode : LexMode}
    {s : Symbol} {size seen : Nat}
    (h : lexer.scanExternal (.ofText text₁ p) mode scanner = some (s, size, seen))
    (hread : ReadsAlike text₁ p text₂ q seen) :
    lexer.scanExternal (.ofText text₂ q) mode scanner = some (s, size, seen) := by
  cases scanner with
  | none => cases h
  | some scanner =>
      obtain ⟨c, hfinds, rfl, rfl⟩ := scanExternal_eq_some_iff.1 h
      obtain ⟨d, hscan, hposition, hsize⟩ := hlocal scanner rfl _ _ _ _ _ _ _ hfinds.scan
        (hread.mono (Nat.le_succ _))
      refine scanExternal_eq_some_iff.2
        ⟨d, ⟨hscan, ?_, hfinds.external, hfinds.valid⟩, hsize.symm, by rw [hposition]⟩
      rw [hsize]
      exact hfinds.pos

/-- Without a scanner, what the mode of errors has at a place is found alike where the same bytes
follow. -/
theorem fallback_none_eq_of_readsAlike {mode mode' : LexMode} {b y size stop : Nat} {s : Symbol}
    (hend : ¬p + b ≥ text₁.size)
    (h : lexer.fallback text₁ (p + b) (p + y) mode none = (s, size, stop, mode')) :
    p + b + size ≤ text₁.size ∧ ∃ n, stop = p + n ∧ y ≤ n ∧
      (ReadsAlike text₁ p text₂ q (max n (b + size + 1)) →
        lexer.fallback text₂ (q + b) (q + y) mode none = (s, size, q + n, mode')) := by
  have hseen : ∀ a z, max (a + y) (a + b + z) = a + max y (b + z) := by
    intro a z
    omega
  simp only [fallback, scanExternal, Option.bind_eq_bind, Option.bind_none, if_neg hend] at h ⊢
  by_cases herror : mode = LexMode.error
  · rw [if_pos herror] at h
    cases h
    refine ⟨by omega, y, rfl, Nat.le_refl y, fun hread => ?_⟩
    rw [if_neg (mt (hread.ge_size_iff (by omega)).2 hend), if_pos herror]
  · rw [if_neg herror] at h
    have hrun : ReadsAlike text₁ (p + b) text₂ (q + b) (lexer.run text₁ (p + b) LexMode.error).2 →
        lexer.run text₂ (q + b) LexMode.error = lexer.run text₁ (p + b) LexMode.error :=
      lexer.run_eq_of_readsAlike LexMode.error
    have hfits := lexer.fits_of_run text₁ (p + b) LexMode.error
    generalize lexer.run text₁ (p + b) LexMode.error = result at h hrun hfits
    obtain ⟨best, z⟩ := result
    simp only [hseen] at h hrun
    have hunexpected : p + b + 1 ≤ text₁.size := Nat.lt_of_not_ge hend
    obtain _ | ⟨⟨s, literal⟩ | _, size⟩ := best
    · cases h
      refine ⟨hunexpected, max y (b + z), rfl, Nat.le_max_left _ _, fun hread => ?_⟩
      rw [if_neg (mt (hread.ge_size_iff (by omega)).2 hend), if_neg herror,
        hrun (hread.shift (by omega))]
      simp only [hseen]
    · have hstop : p + b + size ≤ text₁.size := (hfits _ rfl).le
      cases h
      refine ⟨hstop, max y (b + z), rfl, Nat.le_max_left _ _, fun hread => ?_⟩
      rw [if_neg (mt (hread.ge_size_iff (by omega)).2 hend), if_neg herror,
        hrun (hread.shift (by omega))]
      simp only [hseen]
    · cases h
      refine ⟨hunexpected, max y (b + z), rfl, Nat.le_max_left _ _, fun hread => ?_⟩
      rw [if_neg (mt (hread.ge_size_iff (by omega)).2 hend), if_neg herror,
        hrun (hread.shift (by omega))]
      simp only [hseen]

/-- Only tokens of the mode of errors are found after a scanner has failed. -/
theorem mode_fallback {text : ByteArray} {start examined size stop : Nat} {mode mode' : LexMode}
    {s : Symbol} (hend : ¬start ≥ text.size)
    (hscan : lexer.scanExternal (.ofText text start) mode scanner = none)
    (h : lexer.fallback text start examined mode scanner = (s, size, stop, mode')) :
    mode' = LexMode.error := by
  have hfallback := fallsBack_fallback lexer text start examined mode scanner
  rw [h] at hfallback
  cases hfallback with
  | eof hend' => exact absurd hend' hend
  | external _ hscan' =>
      rw [hscan] at hscan'
      cases hscan'
  | unexpected => rfl
  | other => rfl
  | otherExternal => rfl
  | otherUnexpected => rfl

/-- What stands in where the mode has no token is found alike where the same bytes follow, up to the
byte behind it. -/
theorem fallback_eq_of_readsAlike (hforward : ∀ x ∈ scanner, x.ReadsForward)
    (hlocal : ∀ x ∈ scanner, x.IsLocal) {mode mode' : LexMode} {b y size stop : Nat} {s : Symbol}
    (hmode : scanner ≠ none → mode' ≠ LexMode.error)
    (h : lexer.fallback text₁ (p + b) (p + y) mode scanner = (s, size, stop, mode')) :
    p + b + size ≤ max (p + b) text₁.size ∧ ∃ n, stop = p + n ∧
      (ReadsAlike text₁ p text₂ q (max n (b + size + 1)) → ReadsAlike text₁ p text₂ q y ∧
        lexer.fallback text₂ (q + b) (q + y) mode scanner = (s, size, q + n, mode')) := by
  by_cases hend : p + b ≥ text₁.size
  · rw [fallback, if_pos hend] at h
    cases h
    refine ⟨Nat.le_max_left _ _, b + 1, rfl, fun hread => ⟨hread.extend (by omega) y, ?_⟩⟩
    rw [fallback, if_pos ((hread.ge_size_iff (by omega)).1 hend)]
    rfl
  · cases hscan : lexer.scanExternal (.ofText text₁ (p + b)) mode scanner with
    | some entry =>
        obtain ⟨s, size, seen⟩ := entry
        rw [fallback, if_neg hend, hscan] at h
        cases h
        obtain ⟨_, _, hstop⟩ := scanExternal_spec (gives_true lexer) hforward (by omega) hscan
        refine ⟨by omega, max y (b + seen), by omega, fun hread => ⟨hread.mono (by omega), ?_⟩⟩
        rw [fallback, if_neg (mt (hread.ge_size_iff (by omega)).2 hend),
          scanExternal_eq_of_readsAlike hlocal hscan (hread.shift (by omega))]
        simp only [show max (q + y) (q + b + seen) = q + max y (b + seen) by omega]
    | none =>
        have hnone : scanner = none := not_not.1 fun hne => hmode hne (mode_fallback hend hscan h)
        subst hnone
        obtain ⟨hstop, n, hn, hle, hfound⟩ := fallback_none_eq_of_readsAlike hend h
        exact ⟨by omega, n, hn, fun hread => ⟨hread.mono (by omega), hfound hread⟩⟩

/-- From a place that the same bytes follow, as far as they decided a token, the lexer gives that
token. Where a scanner fails, nothing tells how far it looked; it only matters for tokens of the
mode of errors. -/
theorem lex_eq_of_readsAlike (hforward : ∀ x ∈ scanner, x.ReadsForward)
    (hlocal : ∀ x ∈ scanner, x.IsLocal) {mode : LexMode}
    (hmode : scanner ≠ none → (lexer.lex text₁ p mode scanner).mode ≠ LexMode.error)
    (h : ReadsAlike text₁ p text₂ q (lexer.lex text₁ p mode scanner).reach) :
    lexer.lex text₂ q mode scanner = lexer.lex text₁ p mode scanner := by
  obtain ⟨hstart, hexamined⟩ := lexer.le_skipFrom text₁ mode (text₁.size - p + 1) p p
  obtain ⟨hle, hfound⟩ := lexer.skipFrom_le text₁ mode (text₁.size - p + 1) p p
  have hskip : ∀ n, ReadsAlike text₁ p text₂ q n →
      (lexer.skipFrom text₁ mode (text₁.size - p + 1) p p).2.2 ≤ p + n → _ :=
    fun n hn => skipFrom_eq_of_readsAlike mode hn _ (text₂.size - q + 1) 0 0 (by omega) (by omega)
  rw [lex_eq_tokenOver] at h hmode ⊢
  rw [lex_eq_tokenOver]
  generalize lexer.skipFrom text₁ mode (text₁.size - p + 1) p p = skipped at *
  obtain ⟨start, found, examined⟩ := skipped
  obtain ⟨b, rfl⟩ := Nat.le.dest hstart
  obtain ⟨y, rfl⟩ := Nat.le.dest hexamined
  have hskip : ReadsAlike text₁ p text₂ q y →
      lexer.skipFrom text₂ mode (text₂.size - q + 1) q q = (q + b, found, q + y) := by
    intro hread
    obtain ⟨b', found', y', heq, heq'⟩ := hskip y hread (Nat.le_refl _)
    simp only [Prod.mk.injEq, Nat.add_left_cancel_iff] at heq
    obtain ⟨rfl, rfl, rfl⟩ := heq
    exact heq'
  cases found with
  | some entry =>
      obtain ⟨s, size⟩ := entry
      have hstop := hfound s size rfl
      obtain ⟨hread, heq⟩ := tokenOver_eq_of_readsAlike hle (by omega) h
      rw [hskip (hread.mono (Nat.le_max_left _ _))]
      exact heq
  | none =>
      simp only at h hmode ⊢
      generalize hfallback : lexer.fallback text₁ (p + b) (p + y) mode scanner = last at *
      obtain ⟨s, size, stop, mode'⟩ := last
      obtain ⟨hstop, n, rfl, hlast⟩ :=
        fallback_eq_of_readsAlike (q := q) hforward hlocal hmode hfallback
      obtain ⟨hread, heq⟩ := tokenOver_eq_of_readsAlike hle hstop h
      obtain ⟨hskipped, hlast⟩ := hlast hread
      rw [hskip hskipped]
      simp only
      rw [hlast]
      exact heq

/-- Without a scanner, the bytes up to the lookahead behind a token are all that it depends on. -/
theorem lex_eq_of_bytes_eq (lexer : Lexer) (text₁ text₂ : ByteArray) (position : Nat)
    (mode : LexMode) :
    let token := lexer.lex text₁ position mode none
    let stop := position + token.padding.bytes + token.size.bytes
    (∀ i, position ≤ i → i ≤ stop + token.lookaheadBytes → text₁[i]? = text₂[i]?) →
      lexer.lex text₂ position mode none = token := by
  intro token stop h
  refine lex_eq_of_readsAlike (by simp) (by simp) (fun hne => absurd rfl hne) ?_
  intro i hi
  have hstop : position + i ≤ stop + token.lookaheadBytes := by
    rw [Lexed.reach] at hi
    simp only [stop, token]
    omega
  exact h (position + i) (Nat.le_add_right _ _) hstop

end Lexer

/-! ### Words and a keyword -/

/-- Words of lower case letters between spaces, one of which is a keyword that is valid in the mode of
errors only. -/
def Table.words : Table :=
  { (default : Table) with
    name := "words"
    terminalCount := 3
    lexModes := #[#[⟨1⟩, ⟨2⟩], #[⟨2⟩]]
    lexical :=
      { tokens := #[⟨⟨2⟩, "[a-z]+", false⟩]
        skips := #[" +"]
        word := some ⟨2⟩
        keywords := #[("if", ⟨1⟩)] } }

namespace Lexer

def words : Lexer where
  automaton := Pattern.Automaton.ofExprs
    [.times 1 none (.byte (Pattern.ByteSet.ofRanges [(97, 122)])),
      .times 1 none (.byte (Pattern.ByteSet.singleton 32))]
  patterns := #[.token ⟨2⟩ false, .skip]
  terminalCount := 3
  valid := #[SymbolSet.ofList [⟨1⟩, ⟨2⟩], SymbolSet.ofList [⟨2⟩]]
  word := some (⟨2⟩, 0)
  keywords := ({} : Std.HashMap (List UInt8) Symbol).insert [105, 102] ⟨1⟩
  externals := #[]

theorem ofTable_words : Lexer.ofTable .words = .ok words := by
  have hsources : Table.words.lexical.tokens.toList.map (·.pattern) ++
      Table.words.lexical.skips.toList = ["[a-z]+", " +"] := rfl
  have hread : ["[a-z]+", " +"].mapM Pattern.read?
      = some [.times 1 none (.byte (Pattern.ByteSet.ofRanges [(97, 122)])),
        .times 1 none (.byte (Pattern.ByteSet.singleton 32))] := by decide +kernel
  have hword : wordPattern Table.words.lexical = some (⟨2⟩, 0) := by decide +kernel
  have hkeyword : "if".toByteArray.data.toList = [105, 102] := by decide +kernel
  have hexternals : Table.words.externals = #[] := rfl
  rw [ofTable]
  simp only [hsources, hread, hword, hexternals, words]
  simp [Table.words, hkeyword]

/-- What comes two bytes behind a word is not looked at. -/
theorem lex_words_eq : ∃ lexer, Lexer.ofTable .words = .ok lexer ∧
    (lexer.lex " iffy if".toUTF8 0 1 none).size.bytes = 4 ∧
    (∀ i, 0 ≤ i → i ≤ 0 + 1 + 4 + 1 → " iffy if".toUTF8[i]? = " iffy i77".toUTF8[i]?) ∧
    lexer.lex " iffy i77".toUTF8 0 1 none = lexer.lex " iffy if".toUTF8 0 1 none := by
  have hpadding : (words.lex " iffy if".toUTF8 0 1 none).padding.bytes = 1 := by decide +kernel
  have hsize : (words.lex " iffy if".toUTF8 0 1 none).size.bytes = 4 := by decide +kernel
  have hlookahead : (words.lex " iffy if".toUTF8 0 1 none).lookaheadBytes = 1 := by decide +kernel
  have hbytes : ∀ i < 7, " iffy if".toUTF8[i]? = " iffy i77".toUTF8[i]? := by decide +kernel
  have hbytes' : ∀ i, 0 ≤ i → i ≤ 0 + 1 + 4 + 1 →
      " iffy if".toUTF8[i]? = " iffy i77".toUTF8[i]? :=
    fun i _ hi => hbytes i (Nat.lt_succ_of_le hi)
  refine ⟨words, ofTable_words, hsize, hbytes', lex_eq_of_bytes_eq words _ _ 0 1 ?_⟩
  rw [hpadding, hsize, hlookahead]
  exact hbytes'

end Lexer

end IncrementalLR
