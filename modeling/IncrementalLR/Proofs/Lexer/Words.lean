import Mathlib
import IncrementalLR.Proofs.Lexer.Tiling
import IncrementalLR.Proofs.Table.Range

/-!
# Words in place of valid tokens

A word that is as long as the longest valid token takes its place. It is taken for the keyword that
it spells or for a word even where neither is valid, and there a valid token is lost. Nothing else
keeps the lexer from a longest valid token: no longer skip, no valid keyword and no token of another
mode.
-/

namespace IncrementalLR

theorem Candidate.Outranks.size_le {a b : Candidate} (h : a.Outranks b) : b.size ≤ a.size := by
  cases h with
  | longer _ _ h => exact Nat.le_of_lt h
  | token | literal | lower => exact Nat.le_refl _

namespace Table

variable {t : Table} {mode : LexMode} {rest : List UInt8} {n : Nat}

/-- The length of the longest match, not empty, of the tokens that are valid in the mode. -/
structure IsTokenSize (t : Table) (mode : LexMode) (rest : List UInt8) (n : Nat) : Prop where
  pos : 1 ≤ n
  exists_eligible : ∃ s literal, t.IsEligible mode rest ⟨.token s literal, n⟩
  longest : ∀ s literal m, t.IsEligible mode rest ⟨.token s literal, m⟩ → m ≤ n

/-- So many bytes are a word, and neither the word token nor the keyword that they spell is valid. -/
structure IsForeignWord (t : Table) (mode : LexMode) (rest : List UInt8) (n : Nat) : Prop where
  matchesWord : t.MatchesWord rest n
  word : ∀ w, t.lexical.word = some w → w ∉ t.validSymbols mode
  keyword : ∀ k, t.keyword? (rest.take n) = some k → k ∉ t.validSymbols mode

theorem IsEligible.size_le {c : Candidate} (h : t.IsEligible mode rest c) : c.size ≤ rest.length := by
  obtain ⟨source, _, e, _, hmatch⟩ := h.matchesFront
  exact hmatch.le_length (Nat.zero_le _)

theorem IsTokenSize.size_le (h : t.IsTokenSize mode rest n) {best : Option Candidate}
    (hbest : t.IsBest mode rest best) : ∃ c ∈ best, n ≤ c.size := by
  obtain ⟨s, literal, heligible⟩ := h.exists_eligible
  cases best with
  | none => exact (hbest _ heligible).elim
  | some c =>
      refine ⟨c, rfl, ?_⟩
      rcases hbest.2 _ heligible with heq | hover
      · exact (congrArg Candidate.size heq).le
      · exact hover.size_le

/-- The keyword or the word stands for a word, and is valid if one of them is. -/
theorem wordSymbol_mem_iff {w : Symbol} {keyword : Option Symbol} :
    t.wordSymbol mode w keyword ∈ t.validSymbols mode ↔
      w ∈ t.validSymbols mode ∨ ∃ k ∈ keyword, k ∈ t.validSymbols mode := by
  cases keyword with
  | none => simp [wordSymbol]
  | some k =>
      rw [wordSymbol]
      by_cases hk : k ∈ t.validSymbols mode
      · simp [hk]
      · by_cases hw : w ∈ t.validSymbols mode
        · simp [hk, hw]
        · simp [hk, hw]

theorem wordSymbol_eq_getD {w : Symbol} {keyword : Option Symbol} (hw : w ∉ t.validSymbols mode) :
    t.wordSymbol mode w keyword = keyword.getD w := by
  cases keyword with
  | none => rfl
  | some k =>
      rw [wordSymbol, if_neg hw, ite_self]
      rfl

/-- What is chosen is as long as the longest valid token, and it is valid unless a word that is not
takes its place. -/
theorem Chooses.of_isTokenSize {r : Option Candidate} (h : t.Chooses mode rest r)
    (hkind : ∀ c ∈ r, c.kind ≠ .skip) (hsize : t.IsTokenSize mode rest n)
    (hword : ∀ m, t.MatchesWord rest m → m ≤ n) :
    ∃ s literal, r = some ⟨.token s literal, n⟩ ∧
      (s ∈ t.validSymbols mode ↔ ¬t.IsForeignWord mode rest n) ∧
      (t.IsForeignWord mode rest n → ∃ w, t.lexical.word = some w ∧
        s = (t.keyword? (rest.take n)).getD w) := by
  cases h with
  | best _ hbest hlonger =>
      obtain ⟨⟨kind, size⟩, hc, hle⟩ := hsize.size_le hbest
      rw [Option.mem_def] at hc
      subst hc
      cases kind with
      | skip => exact (hkind _ rfl rfl).elim
      | token s literal =>
          obtain rfl : size = n := Nat.le_antisymm (hsize.longest s literal size hbest.1) hle
          have hvalid : s ∈ t.validSymbols mode := hbest.1.valid s literal rfl
          -- a word of this length would have been preferred
          have hforeign : ¬t.IsForeignWord mode rest size := by
            intro hforeign
            obtain ⟨c, hc, hlonger⟩ := hlonger size ⟨hsize.pos, hforeign.matchesWord, hword⟩
            cases hc
            simp at hlonger
          exact ⟨s, literal, rfl, iff_of_true hvalid hforeign, fun h => (hforeign h).elim⟩
  | word best m w s hbest hm hshort hw hs =>
      obtain ⟨c, hc, hle⟩ := hsize.size_le hbest
      obtain rfl : m = n := Nat.le_antisymm (hword m hm.matchesWord) (hle.trans (hshort c hc).2)
      refine ⟨s, _, rfl, ?_, ?_⟩
      · rw [hs, wordSymbol_mem_iff]
        constructor
        · rintro (hvalid | ⟨k, hk, hvalid⟩) hforeign
          · exact hforeign.word w hw hvalid
          · exact hforeign.keyword k hk hvalid
        · intro hforeign
          by_contra hnone
          obtain ⟨hinvalid, hkeyword⟩ := not_or.1 hnone
          refine hforeign ⟨hm.matchesWord, ?_, fun k hk hvalid => hkeyword ⟨k, hk, hvalid⟩⟩
          intro w' hw'
          rw [hw, Option.some.injEq] at hw'
          rwa [← hw']
      · intro hforeign
        exact ⟨w, hw, by rw [hs, wordSymbol_eq_getD (hforeign.word w hw)]⟩

theorem SkipsTo.exists_chooses (h : t.SkipsTo mode rest n) :
    ∃ r, t.Chooses mode (rest.drop n) r ∧ ∀ c ∈ r, c.kind ≠ .skip := by
  induction h with
  | stop rest r hr hkind => exact ⟨r, hr, hkind⟩
  | skip rest n m _ _ ih => rwa [List.drop_drop] at ih

end Table

/-- The text behind the skips in front of a token. -/
def Lexed.rest (token : Lexed) (text : ByteArray) (position : Nat) : List UInt8 :=
  text.data.toList.drop (position + token.padding.bytes)

namespace Lexer

variable {lexer : Lexer} {t : Table} {text : ByteArray} {position n : Nat} {mode : LexMode}

/-- A token that is found in the mode is what the patterns choose behind the skips. -/
theorem exists_chooses_rest (h : Lexer.ofTable t = .ok lexer) (hle : position ≤ text.size)
    (mode : LexMode) (scanner : Option ExternalScanner) :
    ∃ r, t.Chooses mode ((lexer.lex text position mode scanner).rest text position) r ∧
      (∀ c ∈ r, c.kind ≠ .skip) ∧
      ∀ s literal size, r = some ⟨.token s literal, size⟩ →
        ∃ start examined, (lexer.lex text position mode scanner).rest text position
            = text.data.toList.drop start ∧
          lexer.lex text position mode scanner
            = tokenOver text position start size examined s mode := by
  obtain ⟨n, examined, hskips, hend, hlex⟩ := exists_lex_eq h hle mode scanner
  have hpadding := (skipsTo_padding h hle mode scanner).eq hskips
  have hrest : (lexer.lex text position mode scanner).rest text position
      = text.data.toList.drop (position + n) := by
    rw [Lexed.rest, hpadding]
  obtain ⟨r, hr, hkind⟩ := hskips.exists_chooses
  rw [List.drop_drop] at hr
  refine ⟨r, hrest ▸ hr, hkind, ?_⟩
  intro s literal size heq
  refine ⟨position + n, examined, hrest, ?_⟩
  rw [hlex, (chooses_run h text (position + n) mode).eq hr, heq]
  rfl

theorem lex_of_isTokenSize (h : Lexer.ofTable t = .ok lexer) {scanner : Option ExternalScanner}
    (hsize : t.IsTokenSize mode ((lexer.lex text position mode scanner).rest text position) n)
    (hword : ∀ m, t.MatchesWord ((lexer.lex text position mode scanner).rest text position) m →
      m ≤ n) :
    (lexer.lex text position mode scanner).size.bytes = n ∧
      ((lexer.lex text position mode scanner).symbol ∈ t.validSymbols mode ↔
        ¬t.IsForeignWord mode ((lexer.lex text position mode scanner).rest text position) n) ∧
      (t.IsForeignWord mode ((lexer.lex text position mode scanner).rest text position) n →
        ∃ w, t.lexical.word = some w ∧ (lexer.lex text position mode scanner).symbol
          = (t.keyword? (((lexer.lex text position mode scanner).rest text position).take n)).getD
              w) := by
  obtain ⟨s, literal, heligible⟩ := hsize.exists_eligible
  have hlength := heligible.size_le
  have hpos := hsize.pos
  have hle : position ≤ text.size := by
    rw [Lexed.rest, List.length_drop] at hlength
    have : text.data.toList.length = text.size := rfl
    simp only at hlength
    omega
  obtain ⟨r, hr, hkind, htoken⟩ := exists_chooses_rest h hle mode scanner
  obtain ⟨s, literal, hr, hvalid, hforeign⟩ := hr.of_isTokenSize hkind hsize hword
  obtain ⟨start, examined, hrest, hlex⟩ := htoken s literal n hr
  have hbytes : (tokenOver text position start n examined s mode).size.bytes = n := by
    have : text.data.toList.length = text.size := rfl
    rw [hrest, List.length_drop] at hlength
    rw [tokenOver, bytes_lengthBetween]
    simp only at hlength
    omega
  have hsymbol : (lexer.lex text position mode scanner).symbol = s := by rw [hlex]; rfl
  rw [hsymbol]
  exact ⟨by rw [hlex, hbytes], hvalid, hforeign⟩

end Lexer

/-- Where a valid token matches and no word is longer than the longest match, the token that a compiled
language gives is as long, and valid unless a word of this length is not. Then it is the keyword that
the word spells, or else a word. -/
theorem Language.symbol_mem_iff_of_isTokenSize {d : GrammarDef} {policy : ConflictPolicy}
    {l : Language} (h : Language.load d policy = .ok l) {text : ByteArray} {position n : Nat}
    {mode : LexMode}
    (hsize : l.table.IsTokenSize mode ((l.lexer.lex text position mode none).rest text position) n)
    (hword : ∀ m, l.table.MatchesWord ((l.lexer.lex text position mode none).rest text position) m →
      m ≤ n) :
    (l.lexer.lex text position mode none).size.bytes = n ∧
      ((l.lexer.lex text position mode none).symbol ∈ l.table.validSymbols mode ↔
        ¬l.table.IsForeignWord mode ((l.lexer.lex text position mode none).rest text position) n) ∧
      (l.table.IsForeignWord mode ((l.lexer.lex text position mode none).rest text position) n →
        ∃ w, l.table.lexical.word = some w ∧ (l.lexer.lex text position mode none).symbol
          = (l.table.keyword?
              (((l.lexer.lex text position mode none).rest text position).take n)).getD w) := by
  obtain ⟨g, _, hfrom⟩ := Language.exists_compiledFrom_of_load h
  exact Lexer.lex_of_isTokenSize hfrom.lexer hsize hword

/-! ### A tag that is lost -/

/-- A letter, or a tag behind a hash; the letters are the words. -/
def GrammarDef.tagged : GrammarDef :=
  { name := "tagged"
    rules := [("s", .choice [.symbol "letter", .seq [.literal "#", .symbol "tag"]]),
      ("letter", .pattern "a|b"), ("tag", .pattern "a")]
    extras := some []
    word := some "letter" }

def Grammar.tagged : Grammar :=
  { name := "tagged"
    symbols := #[⟨"end", .terminal, false, false, false⟩, ⟨"letter", .terminal, true, true, false⟩,
      ⟨"tag", .terminal, true, true, false⟩, ⟨"#", .terminal, true, false, false⟩,
      ⟨"start'", .auxiliary, false, false, false⟩, ⟨"s", .nonterminal, true, true, false⟩]
    terminalCount := 4
    start := ⟨5⟩
    productions := #[⟨⟨4⟩, #[{ symbol := ⟨5⟩ }], none, 0⟩, ⟨⟨5⟩, #[{ symbol := ⟨1⟩ }], none, 0⟩,
      ⟨⟨5⟩, #[{ symbol := ⟨3⟩ }, { symbol := ⟨2⟩ }], none, 0⟩]
    fields := #[]
    tokens := #[⟨⟨1⟩, "a|b", false⟩, ⟨⟨2⟩, "a", false⟩, ⟨⟨3⟩, "\\#", true⟩]
    skips := []
    extras := []
    externals := #[]
    word := some ⟨1⟩
    keywords := []
    conflicts := []
    tokenPrecedence := []
    auxOrigin := []
    warnings := [] }

section Tagged

open KernelFollows (states)

set_option maxRecDepth 20000 in
theorem load_tagged : Grammar.load .tagged = .ok .tagged := by
  cbv

theorem states_tagged : states Grammar.tagged
    = ⟨#[[⟨0, 0⟩], [⟨1, 1⟩], [⟨2, 1⟩], [⟨0, 1⟩], [⟨2, 2⟩]],
        #[[(⟨1⟩, 1), (⟨3⟩, 2), (⟨5⟩, 3)], [], [(⟨2⟩, 4)], [], []]⟩ := by
  have hmoves₀ : Lr0.moves .tagged Grammar.tagged.productionsByLhs [⟨0, 0⟩]
      = [(⟨1⟩, [⟨1, 1⟩]), (⟨3⟩, [⟨2, 1⟩]), (⟨5⟩, [⟨0, 1⟩])] := by decide
  have hmoves₁ : Lr0.moves .tagged Grammar.tagged.productionsByLhs [⟨1, 1⟩] = [] := by
    decide
  have hmoves₂ : Lr0.moves .tagged Grammar.tagged.productionsByLhs [⟨2, 1⟩]
      = [(⟨2⟩, [⟨2, 2⟩])] := by decide
  have hmoves₃ : Lr0.moves .tagged Grammar.tagged.productionsByLhs [⟨0, 1⟩] = [] := by
    decide
  have hmoves₄ : Lr0.moves .tagged Grammar.tagged.productionsByLhs [⟨2, 2⟩] = [] := by
    decide
  have hcount : Lr0.itemCount .tagged = 7 := by decide
  simp [states, Lr0.ofGrammar, hmoves₀, hmoves₁, hmoves₂, hmoves₃, hmoves₄, hcount,
    Lr0.Builder.run, Lr0.startKernel, Lr0.Builder.addTransitions, Lr0.Builder.addState]

/-- Behind the hash only tags are valid. -/
theorem exists_load_tagged : ∃ l, Language.load .tagged .strict = .ok l ∧
    l.table.validSymbols 3 = #[⟨2⟩] ∧ l.table.lexical.word = some ⟨1⟩ ∧
    l.table.lexical.keywords = #[] ∧ l.table.lexical.skips = #[] ∧
    l.table.lexical.tokens = Grammar.tagged.tokens := by
  have hvalid : (Compile.buildRows (LookaheadTables.ofGrammar .tagged)
      (states .tagged) .strict).toOption.map (fun rows =>
        (List.range 5).map (Compile.validIn .tagged rows.actions))
      = some [[⟨1⟩, ⟨3⟩], [⟨0⟩], [⟨2⟩], [⟨0⟩], [⟨0⟩]] := by
    rw [states_tagged]
    decide +kernel
  cases hbuilt : Compile.buildRows (LookaheadTables.ofGrammar .tagged) (states .tagged) .strict with
  | error conflict =>
      rw [hbuilt] at hvalid
      cases hvalid
  | ok rows =>
      rw [hbuilt] at hvalid
      simp only [Except.toOption, Option.map_some, Option.some.injEq] at hvalid
      have hmodes : ((Compile.lexModes .tagged rows.actions 5).1)[3]? = some #[⟨2⟩] := by
        have hall : (List.range Grammar.tagged.terminalCount).map Symbol.ofIndex
            = [⟨0⟩, ⟨1⟩, ⟨2⟩, ⟨3⟩] := by decide
        rw [Compile.lexModes_eq, ← List.foldl_map, hvalid]
        simp [Compile.addMode, Compile.modeSearch, hall]
      obtain ⟨t, ht, _⟩ := Table.exists_compile_of_buildRows hbuilt
      obtain ⟨l, hl, rfl⟩ := Language.exists_load load_tagged ht (by decide +kernel)
      have hsize : (Lr0.ofGrammar .tagged).kernels.size = 5 :=
        congrArg (fun a => a.kernels.size) states_tagged
      rw [Table.compile, hbuilt] at ht
      simp only [bind, Except.bind, pure, Except.pure, Except.ok.injEq, hsize] at ht
      generalize Compile.lexModes .tagged rows.actions 5 = modes at hmodes ht
      refine ⟨l, hl, ?_⟩
      rw [← ht]
      refine ⟨?_, rfl, rfl, rfl, rfl⟩
      rw [Table.validSymbols, Array.getD_eq_getD_getElem?]
      exact congrArg (Option.getD · #[]) hmodes

theorem matchesFront_letter : Table.MatchesFront "a|b" [97] 1 :=
  ⟨.alt (.byte (.singleton 97)) (.byte (.singleton 98)), by cbv,
    .first _ _ _ _ (.byte 0 _ 97 rfl (by decide))⟩

theorem matchesFront_tag : Table.MatchesFront "a" [97] 1 :=
  ⟨.byte (.singleton 97), by cbv, .byte 0 _ 97 rfl (by decide)⟩

/-- A letter in the mode of tags: a tag of one byte, the only valid token, matches, and so does a word
as long. -/
theorem exists_isTokenSize_tagged : ∃ l, Language.load .tagged .strict = .ok l ∧
    ((l.lexer.lex "a".toUTF8 0 3 none).rest "a".toUTF8 0) = [97] ∧
    l.table.IsTokenSize 3 [97] 1 ∧ (∀ m, l.table.MatchesWord [97] m → m ≤ 1) ∧
    l.table.IsForeignWord 3 [97] 1 := by
  obtain ⟨l, hl, hvalid, hword, hkeywords, hskips, htokens⟩ := exists_load_tagged
  obtain ⟨g, _, hfrom⟩ := Language.exists_compiledFrom_of_load hl
  have hpatterns : l.table.patterns
      = [(.token ⟨1⟩ false, "a|b"), (.token ⟨2⟩ false, "a"), (.token ⟨3⟩ true, "\\#")] := by
    rw [Table.patterns, htokens, hskips]
    rfl
  have hpadding : (l.lexer.lex "a".toUTF8 0 3 none).padding.bytes = 0 := by
    refine (Lexer.skipsTo_padding hfrom.lexer (Nat.zero_le _) 3 none).eq (.stop _ _
      (Lexer.chooses_run hfrom.lexer _ 0 3) ?_)
    intro c hc hskip
    have hchoice := Lexer.chooses_run hfrom.lexer "a".toUTF8 0 3
    rw [show (l.lexer.run "a".toUTF8 0 3).1 = some c from hc] at hchoice
    cases hchoice with
    | best _ hbest _ =>
        obtain ⟨source, hmem, _⟩ := hbest.1.matchesFront
        rw [hpatterns, hskip] at hmem
        simp at hmem
    | word => cases hskip
  have hshort : ∀ m, l.table.MatchesWord [97] m → m ≤ 1 := by
    rintro m ⟨w, token, _, _, e, _, hmatch⟩
    exact hmatch.le_length (Nat.zero_le _)
  refine ⟨l, hl, ?_, ⟨Nat.le_refl 1, ⟨⟨2⟩, false, Nat.le_refl 1, ⟨"a", ?_, matchesFront_tag⟩, ?_⟩, ?_⟩,
    hshort, ?_⟩
  · rw [Lexed.rest, hpadding]
    decide +kernel
  · rw [hpatterns]
    simp
  · rintro s literal h
    cases h
    rw [hvalid]
    simp
  · intro s literal m heligible
    exact heligible.size_le
  · refine ⟨⟨⟨1⟩, ⟨⟨1⟩, "a|b", false⟩, hword, ?_, matchesFront_letter⟩, ?_, ?_⟩
    · rw [htokens]
      decide
    · rw [hvalid, hword]
      simp
    · intro k hk
      rw [Table.keyword?, hkeywords] at hk
      simp at hk

/-- A tag is the only token that is valid and matches, and no word is longer, but a letter is given. -/
theorem symbol_lex_tagged : ∃ l, Language.load .tagged .strict = .ok l ∧
    l.table.IsTokenSize 3 ((l.lexer.lex "a".toUTF8 0 3 none).rest "a".toUTF8 0) 1 ∧
    (∀ m, l.table.MatchesWord ((l.lexer.lex "a".toUTF8 0 3 none).rest "a".toUTF8 0) m → m ≤ 1) ∧
    (l.lexer.lex "a".toUTF8 0 3 none).symbol ∉ l.table.validSymbols 3 := by
  obtain ⟨l, hl, hrest, hsize, hshort, hforeign⟩ := exists_isTokenSize_tagged
  obtain ⟨g, _, hfrom⟩ := Language.exists_compiledFrom_of_load hl
  rw [← hrest] at hsize hshort hforeign
  refine ⟨l, hl, hsize, hshort, fun hvalid => ?_⟩
  exact ((Lexer.lex_of_isTokenSize hfrom.lexer hsize hshort).2.1.1 hvalid) hforeign

/-- The letter that is given instead is as long as the tag. -/
theorem size_lex_tagged : ∃ l, Language.load .tagged .strict = .ok l ∧
    l.table.IsTokenSize 3 ((l.lexer.lex "a".toUTF8 0 3 none).rest "a".toUTF8 0) 1 ∧
    (∀ m, l.table.MatchesWord ((l.lexer.lex "a".toUTF8 0 3 none).rest "a".toUTF8 0) m → m ≤ 1) ∧
    (l.lexer.lex "a".toUTF8 0 3 none).size.bytes = 1 ∧
    ∃ w, l.table.lexical.word = some w ∧ (l.lexer.lex "a".toUTF8 0 3 none).symbol
      = (l.table.keyword? (((l.lexer.lex "a".toUTF8 0 3 none).rest "a".toUTF8 0).take 1)).getD w := by
  obtain ⟨l, hl, hrest, hsize, hshort, hforeign⟩ := exists_isTokenSize_tagged
  rw [← hrest] at hsize hshort hforeign
  obtain ⟨hbytes, _, hword⟩ := Language.symbol_mem_iff_of_isTokenSize hl hsize hshort
  exact ⟨l, hl, hsize, hshort, hbytes, hword hforeign⟩

end Tagged

end IncrementalLR
