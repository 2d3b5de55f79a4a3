import Mathlib.Logic.Basic
import IncrementalLR.Lexer.Basic
import IncrementalLR.Proofs.Fold
import IncrementalLR.Proofs.Grammar.Terminals

/-!
# Tokens of the lexer

Wherever the lexer is asked, its token lies inside the text. Only the end of input is empty, and it
is given just when nothing but skips is left. An external scanner can only move its cursor forward
and mark ends, so its tokens lie inside the text as well.
-/

namespace IncrementalLR

/-! ### External scanners -/

/-- What becomes of a cursor that is moved forward and marked. -/
inductive ScanCursor.Reaches (c : ScanCursor) : ScanCursor → Prop
  | refl : Reaches c c
  | advance (d : ScanCursor) (h : Reaches c d) : Reaches c d.advance
  | markEnd (d : ScanCursor) (h : Reaches c d) : Reaches c d.markEnd

/-- The scanner looks at the text through its cursor only. -/
def ExternalScanner.ReadsForward (scanner : ExternalScanner) : Prop :=
  ∀ (c : ScanCursor) (valid : ValidSymbols) (s : Symbol) (d : ScanCursor),
    scanner.scan c valid = some (s, d) → c.Reaches d

/-- The cursor reads a text from a place on, and has not left it. -/
structure ScanCursor.Within (text : ByteArray) (start : Nat) (c : ScanCursor) : Prop where
  pull : c.pull = (ofText text start).pull
  position : start + c.position ≤ text.size
  mark : ∀ m ∈ c.mark, start + m ≤ text.size

namespace ScanCursor.Within

variable {text : ByteArray} {start : Nat} {c : ScanCursor}

theorem ofText (h : start ≤ text.size) : Within text start (.ofText text start) :=
  ⟨rfl, h, by simp [ScanCursor.ofText]⟩

theorem advance (h : Within text start c) : Within text start c.advance := by
  unfold ScanCursor.advance
  split
  · rename_i hsome
    have hget : (text[start + c.position]?).isSome := by
      rw [lookahead, h.pull] at hsome
      exact hsome
    have hlt : start + c.position < text.size := by
      refine Decidable.byContradiction fun hge => ?_
      rw [getElem?_neg text _ hge] at hget
      cases hget
    exact ⟨h.pull, hlt, h.mark⟩
  · exact h

theorem markEnd (h : Within text start c) : Within text start c.markEnd := by
  refine ⟨h.pull, h.position, fun m hm => ?_⟩
  rw [ScanCursor.markEnd, Option.mem_some_iff] at hm
  rw [← hm]
  exact h.position

theorem tokenSize_le (h : Within text start c) : start + c.tokenSize ≤ text.size := by
  unfold tokenSize
  cases hmark : c.mark with
  | none => exact h.position
  | some m => exact h.mark m hmark

theorem of_reaches {d : ScanCursor} (h : Within text start c) (hreach : c.Reaches d) :
    Within text start d := by
  induction hreach with
  | refl => exact h
  | advance d _ ih => exact ih.advance
  | markEnd d _ ih => exact ih.markEnd

end ScanCursor.Within

namespace Lexer

/-- All symbols that the lexer can give are terminals beside the end of input. -/
structure WellFormed (lexer : Lexer) : Prop where
  patterns : ∀ (s : Symbol) (literal : Bool), .token s literal ∈ lexer.patterns →
    s.IsToken lexer.terminalCount
  word : ∀ (s : Symbol) (pattern : Nat), lexer.word = some (s, pattern) →
    s.IsToken lexer.terminalCount
  keywords : ∀ (text : List UInt8) (s : Symbol), lexer.keywords[text]? = some s →
    s.IsToken lexer.terminalCount
  externals : ∀ s ∈ lexer.externals, s.IsToken lexer.terminalCount

/-- All symbols that the lexer has tokens of have a property. -/
structure Gives (lexer : Lexer) (P : Symbol → Prop) : Prop where
  patterns : ∀ (s : Symbol) (literal : Bool), .token s literal ∈ lexer.patterns → P s
  word : ∀ (s : Symbol) (pattern : Nat), lexer.word = some (s, pattern) → P s
  keywords : ∀ (text : List UInt8) (s : Symbol), lexer.keywords[text]? = some s → P s
  externals : ∀ s ∈ lexer.externals, P s

theorem WellFormed.gives {lexer : Lexer} (h : lexer.WellFormed) :
    lexer.Gives (Symbol.IsToken lexer.terminalCount) :=
  ⟨h.patterns, h.word, h.keywords, h.externals⟩

variable {lexer : Lexer} {P : Symbol → Prop} {text : ByteArray}

/-! ### Matches -/

/-- A match of some bytes inside the text, of a symbol with the property. -/
structure Fits (P : Symbol → Prop) (text : ByteArray) (start : Nat) (c : Candidate) : Prop where
  pos : 0 < c.size
  le : start + c.size ≤ text.size
  symbol : ∀ (s : Symbol) (literal : Bool), c.kind = .token s literal → P s

structure FoundIn (P : Symbol → Prop) (text : ByteArray) (start : Nat) (found : Found) : Prop where
  best : ∀ c ∈ found.best, Fits P text start c
  word : found.wordSize = 0 ∨ start + found.wordSize ≤ text.size

theorem foundIn_empty {start : Nat} : FoundIn P text start {} :=
  ⟨by simp, .inl rfl⟩

theorem FoundIn.add (hlexer : lexer.Gives P) {start size : Nat} {found : Found}
    (h : FoundIn P text start found) (hpos : 0 < size) (hle : start + size ≤ text.size)
    (valid : SymbolSet) (pattern : Nat) :
    FoundIn P text start (found.add lexer valid size pattern) := by
  have hword : FoundIn P text start
      (if lexer.word.any (·.2 == pattern) then { found with wordSize := size } else found) := by
    split
    · exact ⟨h.best, .inr hle⟩
    · exact h
  rw [Found.add]
  simp only
  generalize (if lexer.word.any (·.2 == pattern) then { found with wordSize := size } else found)
    = marked at hword ⊢
  cases hkind : lexer.patterns[pattern]? with
  | none => exact hword
  | some kind =>
      have hnew : ∀ c ∈ some (⟨kind, size⟩ : Candidate), Fits P text start c := by
        intro c hc
        rw [Option.mem_some_iff] at hc
        rw [← hc]
        refine ⟨hpos, hle, ?_⟩
        intro s literal hs
        simp only at hs
        rw [hs] at hkind
        exact hlexer.patterns s literal (Array.mem_of_getElem? hkind)
      cases kind with
      | token s literal =>
          simp only
          split
          · exact ⟨hnew, hword.word⟩
          · exact hword
      | skip =>
          simp only
          split
          · exact ⟨hnew, hword.word⟩
          · exact hword

theorem FoundIn.addAll (hlexer : lexer.Gives P) {start size : Nat} {found : Found}
    (h : FoundIn P text start found) (hle : size = 0 ∨ start + size ≤ text.size)
    (valid : SymbolSet) (patterns : List Nat) :
    FoundIn P text start (found.addAll lexer valid size patterns) := by
  rw [Found.addAll]
  by_cases hzero : size = 0
  · rw [if_pos hzero]
    exact h
  · rw [if_neg hzero]
    have hle := hle.resolve_left hzero
    induction patterns generalizing found with
    | nil => exact h
    | cons pattern patterns ih =>
        rw [List.foldl_cons]
        exact ih (h.add hlexer (Nat.pos_of_ne_zero hzero) hle valid pattern)

theorem foundIn_runFrom (hlexer : lexer.Gives P) {start i : Nat}
    (hle : i = 0 ∨ start + i ≤ text.size) (valid : SymbolSet) (state : Pattern.Automaton.Run)
    {found : Found} (h : FoundIn P text start found) :
    FoundIn P text start (lexer.runFrom text valid start i state found).1 := by
  fun_induction lexer.runFrom text valid start i state found with
  | case1 => exact h
  | case2 => exact h
  | case3 i state found hlt next _ ih => exact ih (.inr hlt) (h.addAll hlexer hle valid _)
  | case4 => exact h.addAll hlexer hle valid _

theorem fits_of_mem_preferWord (hlexer : lexer.Gives P) {start : Nat} {valid : SymbolSet}
    {found : Found} (h : FoundIn P text start found) {c : Candidate}
    (hc : c ∈ lexer.preferWord text valid start found) : Fits P text start c := by
  rw [preferWord] at hc
  cases hword : lexer.word with
  | none =>
      rw [hword] at hc
      exact h.best c hc
  | some entry =>
      obtain ⟨word, pattern⟩ := entry
      rw [hword] at hc
      simp only at hc
      rw [Option.mem_def, ite_eq_iff] at hc
      rcases hc with ⟨hsize, hc⟩ | ⟨_, hc⟩
      · have hword' := hlexer.word word pattern hword
        rw [Option.some.injEq] at hc
        rw [← hc]
        have hpos : 0 < found.wordSize := by simpa using (Bool.and_eq_true_iff.1 hsize).1
        refine ⟨hpos, h.word.resolve_left (Nat.ne_of_gt hpos), ?_⟩
        intro s literal hs
        rw [PatternKind.token.injEq] at hs
        rw [← hs.1]
        cases hkeyword : lexer.keywords[(text.extract start
            (start + found.wordSize)).data.toList]? with
        | none => simpa using hword'
        | some keyword =>
            have hkeyword' := hlexer.keywords _ keyword hkeyword
            rw [Option.getD_some]
            split
            · exact hkeyword'
            · split
              · exact hword'
              · exact hkeyword'
      · exact h.best c hc

theorem fits_of_mem_run (hlexer : lexer.Gives P) {start : Nat} {mode : LexMode}
    {c : Candidate} (hc : c ∈ (lexer.run text start mode).1) :
    Fits P text start c := by
  rw [run] at hc
  exact fits_of_mem_preferWord hlexer
    (foundIn_runFrom hlexer (.inl rfl) _ _ foundIn_empty) hc

/-- Skips lead to a place inside the text, and a token that is found there fits. -/
theorem skipFrom_spec (hlexer : lexer.Gives P) (mode : LexMode) (fuel start examined : Nat) :
    start ≤ (lexer.skipFrom text mode fuel start examined).1 ∧
      (start ≤ text.size → (lexer.skipFrom text mode fuel start examined).1 ≤ text.size) ∧
      ∀ s size, (lexer.skipFrom text mode fuel start examined).2.1 = some (s, size) →
        P s ∧ 0 < size ∧
          (lexer.skipFrom text mode fuel start examined).1 + size ≤ text.size := by
  induction fuel generalizing start examined with
  | zero => exact ⟨Nat.le_refl _, id, by simp [skipFrom]⟩
  | succ fuel ih =>
      rw [skipFrom]
      cases hrun : lexer.run text start mode with
      | mk best seen =>
          have hfits : ∀ c ∈ best, Fits P text start c := by
            intro c hc
            exact fits_of_mem_run hlexer (by rw [hrun]; exact hc)
          match best with
          | some ⟨.skip, size⟩ =>
              have hfit := hfits _ rfl
              obtain ⟨hstart, hend, hfound⟩ := ih (start + size) (max examined (start + seen))
              exact ⟨Nat.le_trans (Nat.le_add_right start size) hstart, fun _ => hend hfit.le, hfound⟩
          | some ⟨.token s literal, size⟩ =>
              have hfit := hfits _ rfl
              refine ⟨Nat.le_refl _, id, ?_⟩
              intro s' size' heq
              simp only [Option.some.injEq, Prod.mk.injEq] at heq
              rw [← heq.1, ← heq.2]
              exact ⟨hfit.symbol s literal rfl, hfit.pos, hfit.le⟩
          | none => exact ⟨Nat.le_refl _, id, by simp⟩

/-- The scanner finds a valid token of the language that is not empty, and leaves a cursor. -/
structure ScanFinds (lexer : Lexer) (c : ScanCursor) (mode : LexMode) (scanner : ExternalScanner)
    (s : Symbol) (d : ScanCursor) : Prop where
  scan : scanner.scan c (lexer.validSymbols mode) = some (s, d)
  pos : 0 < d.tokenSize
  external : s ∈ lexer.externals
  valid : (lexer.validSymbols mode).contains s = true

theorem scanExternal_eq_some_iff {c : ScanCursor} {mode : LexMode} {scanner : ExternalScanner}
    {s : Symbol} {size seen : Nat} :
    lexer.scanExternal c mode (some scanner) = some (s, size, seen) ↔
      ∃ d, ScanFinds lexer c mode scanner s d ∧ size = d.tokenSize ∧ seen = d.position + 1 := by
  simp only [scanExternal, Option.bind_eq_bind, Option.bind_some]
  constructor
  · intro h
    split at h
    · cases h
    · obtain ⟨⟨s', d⟩, hscan, h⟩ := Option.bind_eq_some_iff.1 h
      simp only at h
      split at h
      · cases h
      · rename_i hvalid
        cases h
        obtain ⟨hsize, hexternal, hcontains⟩ := not_or.1 hvalid |>.imp_right not_or.1
        exact ⟨d, ⟨hscan, Nat.pos_of_ne_zero hsize, by simpa using hexternal,
          by simpa using hcontains⟩, rfl, rfl⟩
  · rintro ⟨d, ⟨hscan, hpos, hexternal, hcontains⟩, rfl, rfl⟩
    have hany : lexer.externals.any (lexer.validSymbols mode).contains = true :=
      Array.any_eq_true'.2 ⟨s, hexternal, hcontains⟩
    simp [hany, hscan, Nat.ne_of_gt hpos, hexternal, hcontains]

/-- Whatever a scanner does, only its tokens are taken, and no empty ones. -/
theorem Gives.of_scanExternal (hlexer : lexer.Gives P) {c : ScanCursor}
    {scanner : Option ExternalScanner} {mode : LexMode} {s : Symbol} {size seen : Nat}
    (h : lexer.scanExternal c mode scanner = some (s, size, seen)) : P s ∧ 0 < size := by
  cases scanner with
  | none => cases h
  | some scanner =>
      obtain ⟨d, hfinds, rfl, _⟩ := scanExternal_eq_some_iff.1 h
      exact ⟨hlexer.externals s hfinds.external, hfinds.pos⟩

theorem scanExternal_spec (hlexer : lexer.Gives P) {scanner : Option ExternalScanner}
    (hscanner : ∀ x ∈ scanner, x.ReadsForward) {start : Nat} (hle : start ≤ text.size)
    {mode : LexMode} {s : Symbol} {size seen : Nat}
    (h : lexer.scanExternal (.ofText text start) mode scanner = some (s, size, seen)) :
    P s ∧ 0 < size ∧ start + size ≤ text.size := by
  obtain ⟨hs, hpos⟩ := hlexer.of_scanExternal h
  refine ⟨hs, hpos, ?_⟩
  cases scanner with
  | none => cases h
  | some scanner =>
      obtain ⟨d, hfinds, rfl, _⟩ := scanExternal_eq_some_iff.1 h
      have hreach := hscanner scanner rfl _ _ _ _ hfinds.scan
      exact ((ScanCursor.Within.ofText hle).of_reaches hreach).tokenSize_le

/-! ### Tokens -/

/-- The token of some bytes at a place, with skips in front of it that start at a position. -/
def tokenOver (text : ByteArray) (position start size examined : Nat) (s : Symbol) (mode : LexMode) :
    Lexed :=
  { symbol := s
    padding := lengthBetween text position start
    size := lengthBetween text start (start + size)
    lookaheadBytes := max (examined - (start + size)) 1
    mode := mode }

/-- The symbol, the size and the mode of a token, and how far the lexer looked for it, where the mode
has no token of its own: the end of input, a token of the scanner, or what the mode of errors has. -/
def fallback (lexer : Lexer) (text : ByteArray) (start examined : Nat) (mode : LexMode)
    (scanner : Option ExternalScanner) : Symbol × Nat × Nat × LexMode :=
  if start ≥ text.size then (Symbol.eof, 0, start + 1, mode)
  else
    match lexer.scanExternal (.ofText text start) mode scanner with
    | some (s, size, seen) => (s, size, max examined (start + seen), mode)
    | none =>
      if mode = LexMode.error then (Symbol.error, 1, examined, LexMode.error)
      else
        let (best, seen) := lexer.run text start LexMode.error
        let examined := max examined (start + seen)
        match best with
        | some ⟨.token s _, size⟩ => (s, size, examined, LexMode.error)
        | _ =>
          match lexer.scanExternal (.ofText text start) LexMode.error scanner with
          | some (s, size, seen) => (s, size, max examined (start + seen), LexMode.error)
          | none => (Symbol.error, 1, examined, LexMode.error)

theorem lex_eq_tokenOver (lexer : Lexer) (text : ByteArray) (position : Nat) (mode : LexMode)
    (scanner : Option ExternalScanner) :
    lexer.lex text position mode scanner =
      match lexer.skipFrom text mode (text.size - position + 1) position position with
      | (start, some (s, size), examined) => tokenOver text position start size examined s mode
      | (start, none, examined) =>
        match lexer.fallback text start examined mode scanner with
        | (s, size, examined, mode) => tokenOver text position start size examined s mode := by
  rw [lex]
  obtain ⟨start, found, examined⟩ :=
    lexer.skipFrom text mode (text.size - position + 1) position position
  cases found with
  | some entry => rfl
  | none =>
      simp only [fallback]
      split
      · rfl
      · cases lexer.scanExternal (.ofText text start) mode scanner with
        | some entry => rfl
        | none =>
            simp only
            split
            · rfl
            · obtain ⟨_ | ⟨_ | _, size⟩, seen⟩ := lexer.run text start LexMode.error
              · cases lexer.scanExternal (.ofText text start) LexMode.error scanner <;> rfl
              · rfl
              · cases lexer.scanExternal (.ofText text start) LexMode.error scanner <;> rfl

/-- How a token is found where the mode has none of its own. -/
inductive FallsBack (lexer : Lexer) (text : ByteArray) (start examined : Nat) (mode : LexMode)
    (scanner : Option ExternalScanner) : Symbol × Nat × Nat × LexMode → Prop where
  | eof (hend : text.size ≤ start) :
      FallsBack lexer text start examined mode scanner (Symbol.eof, 0, start + 1, mode)
  | external {s size seen} (hstart : start < text.size)
      (hscan : lexer.scanExternal (.ofText text start) mode scanner = some (s, size, seen)) :
      FallsBack lexer text start examined mode scanner (s, size, max examined (start + seen), mode)
  | unexpected (hstart : start < text.size) (hmode : mode = LexMode.error) :
      FallsBack lexer text start examined mode scanner (Symbol.error, 1, examined, LexMode.error)
  | other {s literal size} (hstart : start < text.size) (hmode : mode ≠ LexMode.error)
      (hrun : (lexer.run text start LexMode.error).1 = some ⟨.token s literal, size⟩) :
      FallsBack lexer text start examined mode scanner
        (s, size, max examined (start + (lexer.run text start LexMode.error).2), LexMode.error)
  | otherExternal {s size seen} (hstart : start < text.size) (hmode : mode ≠ LexMode.error)
      (hscan : lexer.scanExternal (.ofText text start) LexMode.error scanner = some (s, size, seen)) :
      FallsBack lexer text start examined mode scanner
        (s, size, max (max examined (start + (lexer.run text start LexMode.error).2)) (start + seen),
          LexMode.error)
  | otherUnexpected (hstart : start < text.size) (hmode : mode ≠ LexMode.error) :
      FallsBack lexer text start examined mode scanner
        (Symbol.error, 1, max examined (start + (lexer.run text start LexMode.error).2),
          LexMode.error)

theorem fallsBack_fallback (lexer : Lexer) (text : ByteArray) (start examined : Nat) (mode : LexMode)
    (scanner : Option ExternalScanner) :
    FallsBack lexer text start examined mode scanner
      (lexer.fallback text start examined mode scanner) := by
  rw [fallback]
  by_cases hend : start ≥ text.size
  · rw [if_pos hend]
    exact .eof hend
  rw [if_neg hend]
  have hstart := Nat.lt_of_not_ge hend
  cases hscan : lexer.scanExternal (.ofText text start) mode scanner with
  | some entry => exact .external hstart hscan
  | none =>
      simp only
      by_cases hmode : mode = LexMode.error
      · rw [if_pos hmode]
        exact .unexpected hstart hmode
      · rw [if_neg hmode]
        cases hbest : (lexer.run text start LexMode.error).1 with
        | some c =>
            obtain ⟨kind, size⟩ := c
            cases kind with
            | token s literal => exact .other hstart hmode hbest
            | skip =>
                cases hscan' : lexer.scanExternal (.ofText text start) LexMode.error scanner with
                | some entry => exact .otherExternal hstart hmode hscan'
                | none => exact .otherUnexpected hstart hmode
        | none =>
            cases hscan' : lexer.scanExternal (.ofText text start) LexMode.error scanner with
            | some entry => exact .otherExternal hstart hmode hscan'
            | none => exact .otherUnexpected hstart hmode

/-- A token at a place inside a text. -/
structure TokenAt (lexer : Lexer) (text : ByteArray) (position start stop : Nat) (token : Lexed) :
    Prop where
  position_le : position ≤ start
  start_le : start ≤ stop
  stop_le : stop ≤ text.size
  padding : token.padding = lengthBetween text position start
  size : token.size = lengthBetween text start stop
  /-- the end of input is at the end of the text, and other tokens are not empty -/
  symbol : token.symbol = Symbol.eof ∧ start = text.size ∨
    (token.symbol = Symbol.error ∨ token.symbol.IsToken lexer.terminalCount) ∧ start < stop

/-- A token that is not empty, behind the skips. -/
theorem tokenAt_tokenOver {position start size examined : Nat} {s : Symbol} {mode : LexMode}
    (hstart : position ≤ start) (hs : s = Symbol.error ∨ s.IsToken lexer.terminalCount)
    (hpos : 0 < size) (hfit : start + size ≤ text.size) :
    TokenAt lexer text position start (start + size)
      (tokenOver text position start size examined s mode) :=
  ⟨hstart, Nat.le_add_right start size, hfit, rfl, rfl, .inr ⟨hs, Nat.lt_add_of_pos_right hpos⟩⟩

theorem tokenAt_lex (hlexer : lexer.WellFormed) {scanner : Option ExternalScanner}
    (hscanner : ∀ x ∈ scanner, x.ReadsForward) {position : Nat} (hle : position ≤ text.size)
    (mode : LexMode) :
    ∃ start stop, TokenAt lexer text position start stop (lexer.lex text position mode scanner) := by
  obtain ⟨hstart, hend, hfound⟩ :=
    @skipFrom_spec lexer _ text hlexer.gives mode (text.size - position + 1) position position
  have hend := hend hle
  rw [lex_eq_tokenOver]
  generalize lexer.skipFrom text mode (text.size - position + 1) position position = skipped
    at hstart hend hfound
  obtain ⟨start, found, examined⟩ := skipped
  cases found with
  | some entry =>
      obtain ⟨hs, hpos, hfit⟩ := hfound entry.1 entry.2 rfl
      exact ⟨_, _, tokenAt_tokenOver hstart (.inr hs) hpos hfit⟩
  | none =>
      have hfallback := fallsBack_fallback lexer text start examined mode scanner
      simp only
      generalize lexer.fallback text start examined mode scanner = last at hfallback
      cases hfallback with
      | eof hatEnd =>
          refine ⟨start, start, hstart, Nat.le_refl start, hend, rfl, rfl, .inl ⟨rfl, ?_⟩⟩
          exact Nat.le_antisymm hend hatEnd
      | external _ hscan | otherExternal _ _ hscan =>
          obtain ⟨hs, hpos, hfit⟩ := scanExternal_spec hlexer.gives hscanner hend hscan
          exact ⟨_, _, tokenAt_tokenOver hstart (.inr hs) hpos hfit⟩
      | other _ _ hrun =>
          have hfit := fits_of_mem_run hlexer.gives hrun
          exact ⟨_, _, tokenAt_tokenOver hstart (.inr (hfit.symbol _ _ rfl)) hfit.pos hfit.le⟩
      | unexpected hlt | otherUnexpected hlt =>
          exact ⟨_, _, tokenAt_tokenOver hstart (.inl rfl) Nat.one_pos hlt⟩

/-- Wherever the lexer is asked, and whatever the scanner does, it gives a token with the property, the
end of input or an error. -/
theorem Gives.symbol_lex (hlexer : lexer.Gives P) (scanner : Option ExternalScanner) (position : Nat)
    (mode : LexMode) :
    (lexer.lex text position mode scanner).symbol = Symbol.eof ∨
      (lexer.lex text position mode scanner).symbol = Symbol.error ∨
        P (lexer.lex text position mode scanner).symbol := by
  obtain ⟨_, _, hfound⟩ :=
    @skipFrom_spec lexer _ text hlexer mode (text.size - position + 1) position position
  rw [lex_eq_tokenOver]
  generalize lexer.skipFrom text mode (text.size - position + 1) position position = skipped at hfound
  obtain ⟨start, found, examined⟩ := skipped
  cases found with
  | some entry => exact .inr (.inr (hfound entry.1 entry.2 rfl).1)
  | none =>
      have hfallback := fallsBack_fallback lexer text start examined mode scanner
      simp only
      generalize lexer.fallback text start examined mode scanner = last at hfallback
      cases hfallback with
      | eof => exact .inl rfl
      | external _ hscan | otherExternal _ _ hscan =>
          exact .inr (.inr (hlexer.of_scanExternal hscan).1)
      | other _ _ hrun => exact .inr (.inr ((fits_of_mem_run hlexer hrun).symbol _ _ rfl))
      | unexpected | otherUnexpected => exact .inr (.inl rfl)

/-- A token is one of the mode or one of the mode of errors. -/
theorem mode_lex (lexer : Lexer) (text : ByteArray) (position : Nat) (mode : LexMode)
    (scanner : Option ExternalScanner) :
    (lexer.lex text position mode scanner).mode = mode ∨
      (lexer.lex text position mode scanner).mode = LexMode.error := by
  rw [lex_eq_tokenOver]
  generalize lexer.skipFrom text mode (text.size - position + 1) position position = skipped
  obtain ⟨start, found, examined⟩ := skipped
  cases found with
  | some entry => exact .inl rfl
  | none =>
      have hfallback := fallsBack_fallback lexer text start examined mode scanner
      simp only
      generalize lexer.fallback text start examined mode scanner = last at hfallback
      cases hfallback with
      | eof | external => exact .inl rfl
      | unexpected | other | otherExternal | otherUnexpected => exact .inr rfl

end Lexer

end IncrementalLR
