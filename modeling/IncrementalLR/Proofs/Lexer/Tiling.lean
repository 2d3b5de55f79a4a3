import IncrementalLR.Proofs.Language
import IncrementalLR.Proofs.Lexer.Choice
import IncrementalLR.Proofs.Table.Acceptance
import IncrementalLR.Ttcn3.Scanner

/-!
# How tokens tile a text

A call of the lexer passes over the skips that are chosen one behind the other and takes a token
behind them, which is not empty unless nothing is left. So calls that each start where the token
before ended cover a text without gaps. Every token but the end of input takes up one byte or more of
what is left, and that bounds their number.
-/

namespace IncrementalLR

/-! ### Skips -/

namespace Table

/-- Skips are chosen one behind the other at the front of a text, so many bytes long together, and
what is chosen behind them is no skip. -/
inductive SkipsTo (t : Table) (mode : LexMode) : List UInt8 → Nat → Prop
  | stop (rest : List UInt8) (r : Option Candidate) (hr : t.Chooses mode rest r)
      (hkind : ∀ c ∈ r, c.kind ≠ .skip) : SkipsTo t mode rest 0
  | skip (rest : List UInt8) (n m : Nat) (hskip : t.Chooses mode rest (some ⟨.skip, n⟩))
      (hmore : SkipsTo t mode (rest.drop n) m) : SkipsTo t mode rest (n + m)

variable {t : Table} {mode : LexMode} {rest : List UInt8}

theorem SkipsTo.eq {n m : Nat} (h : t.SkipsTo mode rest n) (h' : t.SkipsTo mode rest m) : n = m := by
  induction h generalizing m with
  | stop rest r hr hkind =>
      cases h' with
      | stop => rfl
      | skip _ k l hskip _ => exact (hkind _ (hr.eq hskip) rfl).elim
  | skip rest n k hskip _ ih =>
      cases h' with
      | stop _ r hr hkind => exact (hkind _ (hr.eq hskip) rfl).elim
      | skip _ n' l hskip' hmore =>
          obtain rfl : n = n' := by simpa using hskip.eq hskip'
          rw [ih hmore]

end Table

/-- The token that a match is of, unless it is a skip. -/
def Candidate.token? : Candidate → Option (Symbol × Nat)
  | ⟨.token s _, size⟩ => some (s, size)
  | ⟨.skip, _⟩ => none

namespace Lexer

variable {lexer : Lexer} {t : Table} {text : ByteArray}

/-- With fuel for all that is left, the skips that are chosen are passed over to the last. -/
theorem skipsTo_skipFrom (h : Lexer.ofTable t = .ok lexer) (text : ByteArray) (mode : LexMode)
    {fuel start : Nat} (hfuel : text.size - start < fuel) (examined : Nat) :
    ∃ n, t.SkipsTo mode (text.data.toList.drop start) n ∧
      (lexer.skipFrom text mode fuel start examined).1 = start + n ∧
        (lexer.skipFrom text mode fuel start examined).2.1
          = (lexer.run text (start + n) mode).1.bind Candidate.token? := by
  induction fuel generalizing start examined with
  | zero => omega
  | succ fuel ih =>
      have hchoice := chooses_run h text start mode
      have hfits : ∀ c ∈ (lexer.run text start mode).1, Fits (fun _ => True) text start c :=
        fun c hc => fits_of_mem_run lexer.gives_true hc
      rw [skipFrom]
      rcases hrun : lexer.run text start mode with ⟨_ | ⟨_ | _, size⟩, seen⟩
      · rw [hrun] at hchoice
        refine ⟨0, .stop _ _ hchoice (by simp), rfl, ?_⟩
        rw [Nat.add_zero, hrun]
        rfl
      · rw [hrun] at hchoice
        refine ⟨0, .stop _ _ hchoice (by simp), rfl, ?_⟩
        rw [Nat.add_zero, hrun]
        rfl
      · rw [hrun] at hchoice hfits
        -- a skip is not empty, so that less is left
        have hpos := (hfits _ rfl).pos
        have hle := (hfits _ rfl).le
        simp only at hpos hle
        obtain ⟨n, hskips, hstart, hfound⟩ :=
          ih (show text.size - (start + size) < fuel by omega) (max examined (start + seen))
        refine ⟨size + n, .skip _ _ _ hchoice ?_, ?_, ?_⟩
        · rwa [List.drop_drop]
        · rw [← Nat.add_assoc]
          exact hstart
        · rw [← Nat.add_assoc]
          exact hfound

/-- The token at a place is behind the skips that are chosen there: what the mode has, or else what
the lexer falls back to. -/
theorem exists_lex_eq (h : Lexer.ofTable t = .ok lexer) {position : Nat} (hle : position ≤ text.size)
    (mode : LexMode) (scanner : Option ExternalScanner) :
    ∃ n examined, t.SkipsTo mode (text.data.toList.drop position) n ∧ position + n ≤ text.size ∧
      lexer.lex text position mode scanner =
        match (lexer.run text (position + n) mode).1.bind Candidate.token? with
        | some (s, size) => tokenOver text position (position + n) size examined s mode
        | none =>
          match lexer.fallback text (position + n) examined mode scanner with
          | (s, size, examined, mode) =>
            tokenOver text position (position + n) size examined s mode := by
  obtain ⟨n, hskips, hstart, hfound⟩ :=
    skipsTo_skipFrom h text mode (Nat.lt_succ_self (text.size - position)) position
  have hend := (@skipFrom_spec lexer _ text lexer.gives_true mode
    (text.size - position + 1) position position).2.1 hle
  rw [lex_eq_tokenOver]
  generalize lexer.skipFrom text mode (text.size - position + 1) position position = skipped at *
  obtain ⟨start, found, examined⟩ := skipped
  simp only at hstart hfound hend
  subst hstart hfound
  refine ⟨n, examined, hskips, hend, ?_⟩
  cases (lexer.run text (position + n) mode).1.bind Candidate.token? <;> rfl

theorem skipsTo_padding (h : Lexer.ofTable t = .ok lexer) {position : Nat}
    (hle : position ≤ text.size) (mode : LexMode) (scanner : Option ExternalScanner) :
    t.SkipsTo mode (text.data.toList.drop position)
      (lexer.lex text position mode scanner).padding.bytes := by
  obtain ⟨n, examined, hskips, hend, hlex⟩ := exists_lex_eq h hle mode scanner
  have hpadding : (lexer.lex text position mode scanner).padding
      = lengthBetween text position (position + n) := by
    rw [hlex]
    cases (lexer.run text (position + n) mode).1.bind Candidate.token? <;> rfl
  rw [hpadding, bytes_lengthBetween, Nat.min_eq_left hend, Nat.add_sub_cancel_left]
  exact hskips

/-! ### One call -/

/-- A token covers the bytes of a text that come next, with its skips in front. -/
structure Covers (t : Table) (text : ByteArray) (mode : LexMode) (position : Nat) (token : Lexed) :
    Prop where
  le : position + token.padding.bytes + token.size.bytes ≤ text.size
  padding : token.padding = lengthBetween text position (position + token.padding.bytes)
  size : token.size = lengthBetween text (position + token.padding.bytes)
    (position + token.padding.bytes + token.size.bytes)
  nonempty : token.symbol ≠ Symbol.eof → 1 ≤ token.size.bytes
  /-- the end of input is given just where nothing but skips is left -/
  eof_iff : token.symbol = Symbol.eof ↔
    t.SkipsTo mode (text.data.toList.drop position) (text.size - position)
  eof : token.symbol = Symbol.eof →
    token.padding = lengthBetween text position text.size ∧ token.size = Length.zero

theorem covers_lex (h : Lexer.ofTable t = .ok lexer) (hlexer : lexer.WellFormed)
    {scanner : Option ExternalScanner} (hscanner : ∀ x ∈ scanner, x.ReadsForward) {position : Nat}
    (hle : position ≤ text.size) (mode : LexMode) :
    Covers t text mode position (lexer.lex text position mode scanner) := by
  have hskips := skipsTo_padding h hle mode scanner
  obtain ⟨start, stop, htoken⟩ := tokenAt_lex hlexer hscanner hle mode
  generalize lexer.lex text position mode scanner = token at hskips htoken
  obtain ⟨hstart, hstop, hend, hpadding, hsize, hsymbol⟩ := htoken
  have hpaddingBytes : token.padding.bytes = start - position := by
    rw [hpadding, bytes_lengthBetween, Nat.min_eq_left (hstop.trans hend)]
  have hsizeBytes : token.size.bytes = stop - start := by
    rw [hsize, bytes_lengthBetween, Nat.min_eq_left hend]
  have hplace : position + token.padding.bytes = start := by omega
  have hplace' : start + token.size.bytes = stop := by omega
  have hatEnd : token.symbol = Symbol.eof ↔ start = text.size := by
    rcases hsymbol with ⟨heof, hatEnd⟩ | ⟨hsymbol, hlt⟩
    · exact iff_of_true heof hatEnd
    · refine iff_of_false (fun heof => ?_) (by omega)
      rw [heof] at hsymbol
      rcases hsymbol with herror | htoken
      · exact absurd herror (by decide)
      · exact absurd htoken.1 (by decide)
  refine ⟨by omega, by rwa [hplace], by rwa [hplace, hplace'], ?_, ?_, ?_⟩
  · intro hne
    have := (hsymbol.resolve_left fun heof => hne heof.1).2
    omega
  · rw [hatEnd]
    constructor
    · intro hlast
      rwa [← hlast, ← hpaddingBytes]
    · intro hall
      have := hskips.eq hall
      omega
  · intro heof
    have hlast := hatEnd.1 heof
    obtain rfl : start = stop := by omega
    refine ⟨by rw [hpadding, hlast], ?_⟩
    rw [hsize, lengthBetween, ByteArray.extract_same]
    rfl

/-! ### One call after the other -/

section

variable (lexer : Lexer) (text : ByteArray) (scanners : Nat → Option ExternalScanner)
  (modes : Nat → LexMode) (first : Nat)

/-- The place where so many tokens end, each of them taken where the one before ended, with a scanner
and in a mode of its own. -/
def placeAfter : Nat → Nat
  | 0 => first
  | n + 1 =>
    let token := lexer.lex text (placeAfter n) (modes n) (scanners n)
    placeAfter n + token.padding.bytes + token.size.bytes

/-- The token behind so many tokens. -/
def tokenAfter (n : Nat) : Lexed :=
  lexer.lex text (placeAfter lexer text scanners modes first n) (modes n) (scanners n)

theorem placeAfter_succ (n : Nat) : placeAfter lexer text scanners modes first (n + 1)
    = placeAfter lexer text scanners modes first n
      + (tokenAfter lexer text scanners modes first n).padding.bytes
      + (tokenAfter lexer text scanners modes first n).size.bytes := rfl

end

variable {scanners : Nat → Option ExternalScanner}

theorem placeAfter_le (h : Lexer.ofTable t = .ok lexer) (hlexer : lexer.WellFormed)
    (hscanners : ∀ n, ∀ x ∈ scanners n, x.ReadsForward) (modes : Nat → LexMode) {first : Nat}
    (hfirst : first ≤ text.size) (n : Nat) :
    placeAfter lexer text scanners modes first n ≤ text.size := by
  induction n with
  | zero => exact hfirst
  | succ n ih => exact (covers_lex h hlexer (hscanners n) ih (modes n)).le

/-- Before the end of input each token takes up one byte or more. -/
theorem add_le_placeAfter (h : Lexer.ofTable t = .ok lexer) (hlexer : lexer.WellFormed)
    (hscanners : ∀ n, ∀ x ∈ scanners n, x.ReadsForward) (modes : Nat → LexMode) {first : Nat}
    (hfirst : first ≤ text.size) {n : Nat}
    (hbefore : ∀ i < n, (tokenAfter lexer text scanners modes first i).symbol ≠ Symbol.eof) :
    first + n ≤ placeAfter lexer text scanners modes first n := by
  induction n with
  | zero => exact Nat.le_refl first
  | succ n ih =>
      have hplace := ih fun i hi => hbefore i (Nat.lt_succ_of_lt hi)
      have hcovers := covers_lex h hlexer (hscanners n)
        (placeAfter_le h hlexer hscanners modes hfirst n) (modes n)
      have hpos := hcovers.nonempty (hbefore n (Nat.lt_succ_self n))
      rw [placeAfter_succ, tokenAfter]
      omega

theorem exists_tokenAfter_eq_eof (h : Lexer.ofTable t = .ok lexer) (hlexer : lexer.WellFormed)
    (hscanners : ∀ n, ∀ x ∈ scanners n, x.ReadsForward) (modes : Nat → LexMode) {first : Nat}
    (hfirst : first ≤ text.size) : ∃ n ≤ text.size - first,
      (tokenAfter lexer text scanners modes first n).symbol = Symbol.eof ∧
        ∀ i < n, (tokenAfter lexer text scanners modes first i).symbol ≠ Symbol.eof := by
  have hex : ∃ n, (tokenAfter lexer text scanners modes first n).symbol = Symbol.eof := by
    by_contra hnone
    have hlong := add_le_placeAfter h hlexer hscanners modes hfirst
      (n := text.size - first + 1) fun i _ heof => hnone ⟨i, heof⟩
    have := placeAfter_le h hlexer hscanners modes hfirst (text.size - first + 1)
    omega
  have hbefore : ∀ i < Nat.find hex, _ := fun i hi => Nat.find_min hex hi
  have hplace := add_le_placeAfter h hlexer hscanners modes hfirst hbefore
  have hle := placeAfter_le h hlexer hscanners modes hfirst (Nat.find hex)
  exact ⟨Nat.find hex, by omega, Nat.find_spec hex, hbefore⟩

end Lexer

/-- Tokens of a compiled language, each taken in any mode and with any scanner where the one before
ended, cover the text one behind the other, and the end of input comes after no more tokens than bytes
are left. -/
theorem Language.tokens_tile {d : GrammarDef} {policy : ConflictPolicy} {l : Language}
    (h : Language.load d policy = .ok l) {scanners : Nat → Option ExternalScanner}
    (hscanners : ∀ n, ∀ x ∈ scanners n, x.ReadsForward) (text : ByteArray) (modes : Nat → LexMode)
    {first : Nat} (hfirst : first ≤ text.size) :
    (∀ n, Lexer.Covers l.table text (modes n)
      (l.lexer.placeAfter text scanners modes first n)
      (l.lexer.tokenAfter text scanners modes first n)) ∧
    ∃ n ≤ text.size - first,
      (l.lexer.tokenAfter text scanners modes first n).symbol = Symbol.eof ∧
      ∀ i < n, (l.lexer.tokenAfter text scanners modes first i).symbol ≠ Symbol.eof := by
  obtain ⟨g, hg, hgrammar, htable, hlexer⟩ := Language.exists_compiledFrom_of_load h
  have hwell := (Lexer.wellFormed_ofTable hgrammar (Table.compile_eq_ok htable).1 hlexer).1
  refine ⟨fun n => ?_, Lexer.exists_tokenAfter_eq_eof hlexer hwell hscanners modes hfirst⟩
  exact Lexer.covers_lex hlexer hwell (hscanners n)
    (Lexer.placeAfter_le hlexer hwell hscanners modes hfirst n) (modes n)

/-! ### Character strings -/

theorem ScanCursor.Reaches.scanString {c d d' : ScanCursor} (hreach : c.Reaches d)
    (h : Ttcn3.scanString d = some d') : c.Reaches d' := by
  fun_induction Ttcn3.scanString d with
  | case1 => cases h
  | case2 d _ _ ih => exact ih hreach.advance.advance h
  | case3 d _ _ =>
      cases h
      exact hreach.advance.markEnd
  | case4 => cases h
  | case5 d _ _ _ ih => exact ih hreach.advance.advance h
  | case6 d _ _ _ _ ih => exact ih hreach.advance h

theorem Ttcn3.readsForward_charstringScanner (charstring : Symbol) :
    (charstringScanner charstring).ReadsForward := by
  intro c valid s d h
  rw [charstringScanner] at h
  simp only at h
  split at h
  · cases h
  · obtain ⟨d', hd, heq⟩ := Option.map_eq_some_iff.1 h
    cases heq
    exact (ScanCursor.Reaches.refl.advance).scanString hd

/-- A scanner of character strings at every second call, and none at the others. -/
def everySecond (n : Nat) : Option ExternalScanner :=
  if n % 2 = 0 then none else some (Ttcn3.charstringScanner ⟨1⟩)

theorem readsForward_everySecond (n : Nat) : ∀ x ∈ everySecond n, x.ReadsForward := by
  intro x hx
  unfold everySecond at hx
  split at hx
  · cases hx
  · rw [← Option.mem_some_iff.1 hx]
    exact Ttcn3.readsForward_charstringScanner ⟨1⟩

/-- In the mode of errors, with the scanner of character strings at hand at every second call, a text
of two tokens and a byte that fits nowhere is covered. -/
theorem Language.tokens_tile_optionalToken : ∃ l, Language.load .optionalToken .strict = .ok l ∧
    (∀ n, ∀ x ∈ everySecond n, x.ReadsForward) ∧ 0 ≤ "xyx".toUTF8.size ∧
    (∀ n, Lexer.Covers l.table "xyx".toUTF8 LexMode.error
      (l.lexer.placeAfter "xyx".toUTF8 everySecond (fun _ => LexMode.error) 0 n)
      (l.lexer.tokenAfter "xyx".toUTF8 everySecond (fun _ => LexMode.error) 0 n)) ∧
    ∃ n ≤ "xyx".toUTF8.size - 0,
      (l.lexer.tokenAfter "xyx".toUTF8 everySecond (fun _ => LexMode.error) 0 n).symbol
        = Symbol.eof ∧
      ∀ i < n, (l.lexer.tokenAfter "xyx".toUTF8 everySecond (fun _ => LexMode.error) 0 i).symbol
        ≠ Symbol.eof := by
  obtain ⟨t, ht, _⟩ := exists_compile_optionalToken
  obtain ⟨l, hl, rfl⟩ := Language.exists_load load_optionalToken ht (by decide +kernel)
  exact ⟨l, hl, readsForward_everySecond, Nat.zero_le _,
    Language.tokens_tile hl readsForward_everySecond "xyx".toUTF8 _ (Nat.zero_le _)⟩

end IncrementalLR
