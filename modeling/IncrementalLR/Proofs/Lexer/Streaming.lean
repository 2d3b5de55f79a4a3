import IncrementalLR.Lexer.Streaming
import IncrementalLR.Proofs.Lexer.Tokens

/-!
# Lexing an input is lexing its text

A source gives the bytes of the text, to a run of the automaton and to a scanner alike, and whatever a
token is made of was passed by then: the matches of a run end where the run has looked, and so does the
token of a scanner. So each part of the lexer
finds over a source what it finds in the text, and the source goes on with the same text.
-/

namespace IncrementalLR

/-! ### Texts from their pieces -/

namespace Text.Input

/-- What is folded over the pieces of a text does not depend on where the text is cut: it is what the
rest of the text gives as one piece. -/
theorem foldFrom_eq {α : Type} {f : α → ByteArray → α} (hempty : ∀ a, f a ByteArray.empty = a)
    (happend : ∀ a b c, f (f a b) c = f a (b ++ c)) (a : α) (input : Input) (offset : Nat) :
    (input.foldFrom f a offset).1 = f a (input.text.extract offset input.text.size) := by
  fun_induction foldFrom f a input offset with
  | case1 a input offset answer hsize =>
      have hend : ¬ offset < input.text.size := fun hlt =>
        Nat.ne_of_gt (input.size_read_pos hlt) hsize
      rw [ByteArray.extract_eq_empty_iff.2 (by omega), hempty]
  | case2 a input offset answer hsize ih =>
      have hpos : 0 < (input.read offset).1.size := Nat.pos_of_ne_zero hsize
      have hstands := input.standsAt_read offset
      have hle := hstands.le_size hpos
      rw [ih, happend, input.text_read offset,
        ByteArray.extract_eq_extract_append_extract (offset + (input.read offset).1.size)
          (Nat.le_add_right _ _) hle]
      unfold StandsAt at hstands
      rw [hstands]

theorem remainingLength_eq (input : Input) (offset : Nat) :
    (input.remainingLength offset).1
      = Length.ofBytes (input.text.extract offset input.text.size) := by
  unfold remainingLength
  rw [foldFrom_eq (fun _ => rfl)]
  · rfl
  · intro length b c
    rw [ByteArray.data_append, Array.toList_append, List.foldl_append]

end Text.Input

end IncrementalLR

namespace IncrementalLR.Lexer

open Text (Input Source)

variable {lexer : Lexer} {source : Source} {start : Nat}

/-! ### Runs -/

/-- All matches end in front of a place. -/
structure EndsBy (start stop : Nat) (found : Found) : Prop where
  best : ∀ c ∈ found.best, start + c.size ≤ stop
  word : start + found.wordSize ≤ stop

theorem EndsBy.mono {stop stop' : Nat} {found : Found} (h : EndsBy start stop found)
    (hle : stop ≤ stop') : EndsBy start stop' found :=
  ⟨fun c hc => Nat.le_trans (h.best c hc) hle, Nat.le_trans h.word hle⟩

theorem EndsBy.add {stop size : Nat} {found : Found} (h : EndsBy start stop found)
    (hle : start + size ≤ stop) (valid : SymbolSet) (pattern : Nat) :
    EndsBy start stop (found.add lexer valid size pattern) := by
  have hmarked : EndsBy start stop
      (if lexer.word.any (·.2 == pattern) then { found with wordSize := size } else found) := by
    split
    · exact ⟨h.best, hle⟩
    · exact h
  rw [Found.add]
  simp only
  generalize (if lexer.word.any (·.2 == pattern) then { found with wordSize := size } else found)
    = marked at hmarked ⊢
  cases lexer.patterns[pattern]? with
  | none => exact hmarked
  | some kind =>
      have hnew : EndsBy start stop { marked with best := some ⟨kind, size⟩ } := by
        refine ⟨fun c hc => ?_, hmarked.word⟩
        rw [← Option.mem_some_iff.1 hc]
        exact hle
      simp only
      split
      · split
        · exact hnew
        · exact hmarked
      · split
        · exact hnew
        · exact hmarked

theorem EndsBy.addAll {stop size : Nat} {found : Found} (h : EndsBy start stop found)
    (hle : start + size ≤ stop) (valid : SymbolSet) (patterns : List Nat) :
    EndsBy start stop (found.addAll lexer valid size patterns) := by
  rw [Found.addAll]
  split
  · exact h
  · induction patterns generalizing found with
    | nil => exact h
    | cons pattern patterns ih => exact ih (h.add hle valid pattern)

/-- A byte that a source gives stands in the text, and was passed then. -/
theorem byte_spec {i : Nat} {b : UInt8} {source' : Source} (hstart : source.start ≤ start)
    (hbyte : source.byte (start + i) = (some b, source')) :
    ∃ hlt : start + i < source.input.text.size, source.input.text[start + i] = b ∧
      source.Extends source' ∧ start + (i + 1) ≤ source'.stop := by
  have hle : source.start ≤ start + i := Nat.le_add_right_of_le hstart
  have hlt := source.lt_size_of_byte (congrArg Prod.fst hbyte)
  have hget := source.byte_eq hle
  have hextends := source.extends_byte (start + i)
  have hpassed := source.lt_stop_byte hlt hle
  rw [hbyte] at hget hextends hpassed
  rw [getElem?_pos source.input.text _ hlt, Option.some.injEq] at hget
  exact ⟨hlt, hget.symm, hextends, hpassed⟩

theorem runThrough_spec (lexer : Lexer) (valid : SymbolSet) (i : Nat)
    (state : Pattern.Automaton.Run) (found : Found)
    (hstart : source.start ≤ start) (hpassed : start + i ≤ source.stop)
    (h : EndsBy start source.stop found) :
    (lexer.runThrough valid start i state found source).1
        = lexer.runFrom source.input.text valid start i state found ∧
      source.Extends (lexer.runThrough valid start i state found source).2 ∧
      EndsBy start (lexer.runThrough valid start i state found source).2.stop
        (lexer.runThrough valid start i state found source).1.1 := by
  fun_induction lexer.runThrough valid start i state found source with
  | case1 i state found source b source' hbyte next hdead hdies =>
      obtain ⟨hlt, hget, hextends, _⟩ := byte_spec hstart hbyte
      rw [runFrom, dif_pos hlt, hget, if_pos hdead, if_pos hdies]
      exact ⟨rfl, hextends, h.mono hextends.stop⟩
  | case2 i state found source b source' hbyte next hdead hdies =>
      obtain ⟨hlt, hget, hextends, _⟩ := byte_spec hstart hbyte
      rw [runFrom, dif_pos hlt, hget, if_pos hdead, if_neg hdies]
      exact ⟨rfl, hextends, h.mono hextends.stop⟩
  | case3 i state found source b source' hbyte next hdead ih =>
      obtain ⟨hlt, hget, hextends, hpassed'⟩ := byte_spec hstart hbyte
      obtain ⟨heq, hextends', hends⟩ := ih (by rwa [hextends.start]) hpassed'
        ((h.mono hextends.stop).addAll (Nat.le_of_succ_le hpassed') valid next.matched)
      rw [runFrom, dif_pos hlt, hget, if_neg hdead]
      rw [hextends.text] at heq
      exact ⟨heq, hextends.trans hextends', hends⟩
  | case4 i state found source source' hbyte =>
      have hextends := source.extends_byte (start + i)
      rw [hbyte] at hextends
      have hend : ¬ start + i < source.input.text.size := by
        intro hlt
        have hget := source.byte_eq (Nat.le_add_right_of_le hstart (k := i))
        rw [hbyte, getElem?_pos source.input.text _ hlt] at hget
        cases hget
      rw [runFrom, dif_neg hend]
      exact ⟨rfl, hextends, (h.mono hextends.stop).addAll (Nat.le_trans hpassed hextends.stop) _ _⟩

theorem preferWord_bytes (lexer : Lexer) (valid : SymbolSet) {found : Found}
    (hstart : source.start ≤ start) (hends : EndsBy start source.stop found) :
    lexer.preferWord source.bytes valid (start - source.start) found
      = lexer.preferWord source.input.text valid start found := by
  have hslice := source.slice_eq hstart
    (Nat.le_trans (Nat.min_le_left (start + found.wordSize) _) hends.word)
  unfold Source.slice at hslice
  unfold preferWord
  rw [← hslice, Nat.sub_add_comm hstart]

/-- The best match is the word, or what the run has found. -/
theorem EndsBy.le_of_mem_preferWord {text : ByteArray} {valid : SymbolSet} {found : Found}
    {stop : Nat} (h : EndsBy start stop found) :
    ∀ c ∈ lexer.preferWord text valid start found, start + c.size ≤ stop := by
  intro c hc
  unfold preferWord at hc
  cases hword : lexer.word with
  | none =>
      rw [hword] at hc
      exact h.best c hc
  | some word =>
      rw [hword] at hc
      simp only at hc
      rw [Option.mem_def, ite_eq_iff] at hc
      rcases hc with ⟨_, hc⟩ | ⟨_, hc⟩
      · rw [← Option.some.inj hc]
        exact h.word
      · exact h.best c hc

theorem runOn_spec (lexer : Lexer) (start : Nat) (mode : LexMode) (source : Source)
    (hstart : source.start ≤ start) (hpassed : start ≤ source.stop) :
    (lexer.runOn start mode source).1 = lexer.run source.input.text start mode ∧
      source.Extends (lexer.runOn start mode source).2 ∧
      ∀ c ∈ (lexer.runOn start mode source).1.1,
        start + c.size ≤ (lexer.runOn start mode source).2.stop := by
  obtain ⟨heq, hextends, hends⟩ := lexer.runThrough_spec (lexer.validSymbols mode).set 0
    (lexer.automaton.begin none) {} hstart hpassed ⟨by simp, hpassed⟩
  unfold runOn run
  simp only
  rw [← heq]
  generalize lexer.runThrough (lexer.validSymbols mode).set start 0 (lexer.automaton.begin none) {}
    source = result at hextends hends ⊢
  obtain ⟨⟨found, examined⟩, source'⟩ := result
  have hword := lexer.preferWord_bytes (lexer.validSymbols mode).set
    (by rwa [hextends.start]) hends
  rw [hextends.text, hextends.start] at hword
  simp only at hextends ⊢
  rw [hextends.start, hword]
  exact ⟨rfl, hextends, hends.le_of_mem_preferWord⟩

/-! ### Skips -/

/-- What skips lead to over a source is as expected, and the place behind them and the token there were
passed. -/
structure SkipsOver (source : Source) (start : Nat) (expected : Nat × Option (Symbol × Nat) × Nat)
    (result : (Nat × Option (Symbol × Nat) × Nat) × Source) : Prop where
  eq : result.1 = expected
  grows : source.Extends result.2
  le : start ≤ result.1.1
  passed : result.1.1 ≤ result.2.stop
  token : ∀ s size, result.1.2.1 = some (s, size) → result.1.1 + size ≤ result.2.stop

theorem skipsOver_skipThrough (lexer : Lexer) (mode : LexMode) (fuel examined : Nat)
    (hstart : source.start ≤ start) (hpassed : start ≤ source.stop) :
    SkipsOver source start (lexer.skipFrom source.input.text mode fuel start examined)
      (lexer.skipThrough mode fuel start examined source) := by
  induction fuel generalizing start examined source with
  | zero => exact ⟨rfl, .refl source, Nat.le_refl _, hpassed, by simp [skipThrough]⟩
  | succ fuel ih =>
      obtain ⟨heq, hgrows, hends⟩ := lexer.runOn_spec start mode source hstart hpassed
      have hpassed' := Nat.le_trans hpassed hgrows.stop
      rw [skipThrough, skipFrom, ← heq]
      generalize lexer.runOn start mode source = result at hgrows hends hpassed' ⊢
      obtain ⟨⟨best, seen⟩, source'⟩ := result
      obtain _ | ⟨⟨s, literal⟩ | _, size⟩ := best
      · exact ⟨rfl, hgrows, Nat.le_refl _, hpassed', by simp⟩
      · refine ⟨rfl, hgrows, Nat.le_refl _, hpassed', fun s' size' heq => ?_⟩
        rw [← (Prod.mk.inj (Option.some.inj heq)).2]
        exact hends _ rfl
      · have hstart' : source'.start ≤ start + size := by
          rw [hgrows.start]
          exact Nat.le_add_right_of_le hstart
        have hskips := ih (max examined (start + seen)) hstart' (hends _ rfl)
        rw [hgrows.text] at hskips
        exact ⟨hskips.eq, hgrows.trans hskips.grows, Nat.le_trans (Nat.le_add_right _ _) hskips.le,
          hskips.passed, hskips.token⟩

/-! ### Tokens -/

/-- A scanner pulls the same bytes out of a source as out of its text. -/
theorem ofSource_eq_ofText (hstart : source.start ≤ start) :
    ScanCursor.ofSource source start = .ofText source.input.text start := by
  have hpull : (ScanCursor.ofSource source start).pull
      = (ScanCursor.ofText source.input.text start).pull := by
    funext i
    exact source.byte_eq (Nat.le_add_right_of_le hstart)
  unfold ScanCursor.ofSource ScanCursor.ofText at hpull ⊢
  simp only at hpull
  simp only [hpull]

theorem scanThrough_spec (lexer : Lexer) (mode : LexMode) (scanner : Option ExternalScanner)
    (hstart : source.start ≤ start) :
    (lexer.scanThrough start mode scanner source).1
        = lexer.scanExternal (.ofText source.input.text start) mode scanner ∧
      source.Extends (lexer.scanThrough start mode scanner source).2 ∧
      ∀ s size seen, (lexer.scanThrough start mode scanner source).1 = some (s, size, seen) →
        min (start + size) source.input.text.size
          ≤ (lexer.scanThrough start mode scanner source).2.stop := by
  unfold scanThrough
  rw [ofSource_eq_ofText hstart]
  cases lexer.scanExternal (.ofText source.input.text start) mode scanner with
  | none => exact ⟨rfl, .refl source, by simp⟩
  | some entry =>
      obtain ⟨s, size, seen⟩ := entry
      have hpasses := source.passes_fillTo (start + max size (seen - 1))
      refine ⟨rfl, source.extends_fillTo _, fun s' size' seen' heq => ?_⟩
      obtain ⟨_, rfl, _⟩ := Prod.mk.inj (Option.some.inj heq)
      simp only
      omega

/-- What is found over a source is as expected, and its bytes were looked at. -/
structure FindsOver (source : Source) (start : Nat) (expected : Symbol × Nat × Nat × LexMode)
    (result : (Symbol × Nat × Nat × LexMode) × Source) : Prop where
  eq : result.1 = expected
  grows : source.Extends result.2
  passed : min (start + result.1.2.1) source.input.text.size ≤ result.2.stop

theorem FindsOver.of_extends {source' : Source} {expected : Symbol × Nat × Nat × LexMode}
    {result : (Symbol × Nat × Nat × LexMode) × Source} (hgrows : source.Extends source')
    (h : FindsOver source' start expected result) : FindsOver source start expected result :=
  ⟨h.eq, hgrows.trans h.grows, hgrows.text ▸ h.passed⟩

theorem findsOver_of_le {s : Symbol} {size examined : Nat} {mode : LexMode}
    (h : start + size ≤ source.stop) :
    FindsOver source start (s, size, examined, mode) ((s, size, examined, mode), source) :=
  ⟨rfl, .refl source, Nat.le_trans (Nat.min_le_left _ _) h⟩

/-- The scanner is asked, and what comes next is found where it has no token. -/
theorem findsOver_scanThrough (lexer : Lexer) (examined : Nat) (mode : LexMode)
    (scanner : Option ExternalScanner) (hstart : source.start ≤ start)
    {expected : Symbol × Nat × Nat × LexMode}
    {next : Source → (Symbol × Nat × Nat × LexMode) × Source}
    (hnext : ∀ source', source.Extends source' → FindsOver source' start expected (next source')) :
    FindsOver source start
      (match lexer.scanExternal (.ofText source.input.text start) mode scanner with
        | some (s, size, seen) => (s, size, max examined (start + seen), mode)
        | none => expected)
      (match lexer.scanThrough start mode scanner source with
        | (some (s, size, seen), source') =>
          ((s, size, max examined (start + seen), mode), source')
        | (none, source') => next source') := by
  obtain ⟨hscan, hgrows, hpassed⟩ := lexer.scanThrough_spec mode scanner hstart
  rw [← hscan]
  generalize lexer.scanThrough start mode scanner source = result at hgrows hpassed ⊢
  obtain ⟨_ | ⟨s, size, seen⟩, source'⟩ := result
  · exact (hnext source' hgrows).of_extends hgrows
  · exact ⟨rfl, hgrows, hpassed s size seen rfl⟩

theorem findsOver_fallThrough (lexer : Lexer) (examined : Nat) (mode : LexMode)
    (scanner : Option ExternalScanner) (hstart : source.start ≤ start)
    (hpassed : start ≤ source.stop) :
    FindsOver source start (lexer.fallback source.input.text start examined mode scanner)
      (lexer.fallThrough start examined mode scanner source) := by
  have hget := source.byte_eq hstart
  have hgrows := source.extends_byte start
  unfold fallThrough fallback
  cases hbyte : source.byte start with
  | mk byte source₁ =>
  rw [hbyte] at hget hgrows
  cases byte with
  | none =>
      have hend : start ≥ source.input.text.size := by
        refine Nat.le_of_not_lt fun hlt => ?_
        rw [getElem?_pos source.input.text _ hlt] at hget
        cases hget
      rw [if_pos hend]
      exact (findsOver_of_le (Nat.le_trans hpassed hgrows.stop)).of_extends hgrows
  | some b =>
      have hlt := source.lt_size_of_byte (congrArg Prod.fst hbyte)
      have hpassed₁ := source.lt_stop_byte hlt hstart
      rw [hbyte] at hpassed₁
      rw [if_neg (Nat.not_le_of_lt hlt), ← hgrows.text]
      refine FindsOver.of_extends hgrows
        (lexer.findsOver_scanThrough examined mode scanner (by rwa [hgrows.start])
          fun source₂ hgrows₂ => ?_)
      have hpassed₂ : start + 1 ≤ source₂.stop := Nat.le_trans hpassed₁ hgrows₂.stop
      by_cases hmode : mode = LexMode.error
      · rw [if_pos hmode, if_pos hmode]
        exact findsOver_of_le hpassed₂
      rw [if_neg hmode, if_neg hmode]
      obtain ⟨hrun, hgrows₃, hends⟩ := lexer.runOn_spec start LexMode.error source₂
        (by rwa [hgrows₂.start, hgrows.start]) (Nat.le_of_succ_le hpassed₂)
      rw [← hgrows₂.text, ← hrun]
      generalize lexer.runOn start LexMode.error source₂ = result at hgrows₃ hends ⊢
      obtain ⟨⟨best, seen⟩, source₃⟩ := result
      refine FindsOver.of_extends hgrows₃ ?_
      have hlast : ∀ source₄, source₃.Extends source₄ →
          FindsOver source₄ start (Symbol.error, 1, max examined (start + seen), LexMode.error)
            ((Symbol.error, 1, max examined (start + seen), LexMode.error), source₄) :=
        fun _ hgrows₄ =>
          findsOver_of_le (Nat.le_trans hpassed₂ (Nat.le_trans hgrows₃.stop hgrows₄.stop))
      have hscan := lexer.findsOver_scanThrough (max examined (start + seen)) LexMode.error scanner
        (by rwa [hgrows₃.start, hgrows₂.start, hgrows.start]) hlast
      rw [hgrows₃.text] at hscan
      obtain _ | ⟨⟨s, literal⟩ | _, size⟩ := best
      · exact hscan
      · exact findsOver_of_le (hends _ rfl)
      · exact hscan

theorem tokenOver_eq_of_extends {input : Input} {position size examined : Nat} {s : Symbol}
    {mode : LexMode} (hgrows : (Source.ofInput input position).Extends source) (hle : position ≤ start)
    (hpassed : start ≤ source.stop) (hsize : min (start + size) input.text.size ≤ source.stop) :
    (⟨s, Length.ofBytes (source.slice position start),
        Length.ofBytes (source.slice start (start + size)), max (examined - (start + size)) 1, mode⟩
      : Lexed) = tokenOver input.text position start size examined s mode := by
  have htext : source.input.text = input.text := hgrows.text
  have hstart : source.start = position := hgrows.start
  have hpadding := source.slice_eq (Nat.le_of_eq hstart)
    (Nat.le_trans (Nat.min_le_left start _) hpassed)
  have hwidth := source.slice_eq (Nat.le_trans (Nat.le_of_eq hstart) hle) (by rwa [htext])
  rw [htext] at hpadding hwidth
  unfold tokenOver lengthBetween
  rw [hpadding, hwidth]

/-- The token at a place of an input is that of its text, and the input goes on with the same text. -/
theorem lexFrom_spec (lexer : Lexer) (input : Input) (position : Nat) (mode : LexMode)
    (scanner : Option ExternalScanner) :
    (lexer.lexFrom input position mode scanner).1 = lexer.lex input.text position mode scanner ∧
      (lexer.lexFrom input position mode scanner).2.text = input.text := by
  have hstart : (Source.ofInput input position).start ≤ position := Nat.le_refl _
  have hstop : position ≤ (Source.ofInput input position).stop := Nat.le_refl _
  obtain ⟨hskip, hgrows, hle, hpassed, hsize⟩ :=
    lexer.skipsOver_skipThrough mode (input.text.size - position + 1) position hstart hstop
  rw [lex_eq_tokenOver, lexFrom]
  change _ = lexer.skipFrom input.text mode _ position position at hskip
  rw [← hskip]
  generalize lexer.skipThrough mode (input.text.size - position + 1) position position
    (.ofInput input position) = result at hgrows hle hpassed hsize ⊢
  obtain ⟨⟨start, found, examined⟩, source₁⟩ := result
  have htext : source₁.input.text = input.text := hgrows.text
  cases found with
  | some entry =>
      exact ⟨tokenOver_eq_of_extends hgrows hle hpassed
        (Nat.le_trans (Nat.min_le_left _ _) (hsize entry.1 entry.2 rfl)), htext⟩
  | none =>
      have hfall := lexer.findsOver_fallThrough examined mode scanner (by rwa [hgrows.start]) hpassed
      rw [htext] at hfall
      obtain ⟨heq, hgrows', hend⟩ := hfall
      simp only
      rw [← heq]
      generalize lexer.fallThrough start examined mode scanner source₁ = result at hgrows' hend ⊢
      obtain ⟨⟨s, size, examined', mode'⟩, source₂⟩ := result
      rw [htext] at hend
      have hgrows₂ := hgrows.trans hgrows'
      exact ⟨tokenOver_eq_of_extends hgrows₂ hle (Nat.le_trans hpassed hgrows'.stop) hend,
        hgrows₂.text⟩

end IncrementalLR.Lexer
