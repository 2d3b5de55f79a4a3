import IncrementalLR.Proofs.Lexer.Lookahead
import IncrementalLR.Proofs.Pattern.Reader
import IncrementalLR.Proofs.Pattern.Running

/-!
# The choice of a token

Of all matches of valid patterns and skips in front of a text the lexer takes the longest, where
tokens come before skips, literals before patterns and lower symbols before higher ones. A word as
long as the match takes its place, as the keyword that it spells if there is one. A run of the
automaton keeps the best match so far and the length of the word so far; as it ends or dies no match
is left to come.
-/

namespace IncrementalLR

/-! ### Ranks of matches -/

/-- The first match is taken before the second. -/
inductive Candidate.Outranks : Candidate → Candidate → Prop
  | longer (a b : Candidate) (h : b.size < a.size) : Outranks a b
  | token (s : Symbol) (literal : Bool) (size : Nat) :
      Outranks ⟨.token s literal, size⟩ ⟨.skip, size⟩
  | literal (s s' : Symbol) (size : Nat) : Outranks ⟨.token s true, size⟩ ⟨.token s' false, size⟩
  | lower (s s' : Symbol) (literal : Bool) (size : Nat) (h : s.id < s'.id) :
      Outranks ⟨.token s literal, size⟩ ⟨.token s' literal, size⟩

namespace Candidate

variable {a b c : Candidate}

/-- Ranks as numbers: the length first, and then one bit for a token, one for a literal, and the
symbol from above. -/
def rank (c : Candidate) : Nat :=
  match c.kind with
  | .skip => 262144 * c.size
  | .token s literal => 262144 * c.size + 131072 + (if literal then 65536 else 0) + (65535 - s.index)

theorem index_le (s : Symbol) : s.index ≤ 65535 := Nat.le_of_lt_succ s.id.toNat_lt

theorem outranks_iff : a.Outranks b ↔ b.rank < a.rank := by
  constructor
  · intro h
    cases h with
    | longer _ _ hsize =>
        rw [rank, rank]
        have ha : ∀ s : Symbol, s.index ≤ 65535 := index_le
        split <;> split <;> (try split) <;> (try split) <;> omega
    | token s literal size => simp only [rank]; omega
    | literal s s' size =>
        have := index_le s
        have := index_le s'
        simp only [rank]
        simp
        omega
    | lower s s' literal size hid =>
        have := index_le s'
        have hlt : s.index < s'.index := UInt16.lt_iff_toNat_lt.1 hid
        simp only [rank]
        omega
  · obtain ⟨kind, size⟩ := a
    obtain ⟨kind', size'⟩ := b
    intro h
    by_cases hlonger : size' < size
    · exact .longer _ _ hlonger
    · -- as long as each other, or else the rank would not be higher
      have hle : size ≤ size' := Nat.le_of_not_lt hlonger
      cases kind with
      | skip => cases kind' <;> simp only [rank] at h <;> omega
      | token s literal =>
          have hs := index_le s
          cases kind' with
          | skip =>
              simp only [rank] at h
              obtain rfl : size = size' := by split at h <;> omega
              exact .token s literal size
          | token s' literal' =>
              have hs' := index_le s'
              simp only [rank] at h
              obtain rfl : size = size' := by split at h <;> split at h <;> omega
              cases literal <;> cases literal'
              · exact .lower s s' false size (UInt16.lt_iff_toNat_lt.2 (by
                  simp only [Symbol.index] at *
                  omega))
              · simp at h
                omega
              · exact .literal s s' size
              · exact .lower s s' true size (UInt16.lt_iff_toNat_lt.2 (by
                  simp only [Symbol.index] at *
                  omega))

theorem beats_iff : a.beats b = true ↔ a.Outranks b := by
  obtain ⟨kind, size⟩ := a
  obtain ⟨kind', size'⟩ := b
  rw [beats]
  constructor
  · intro h
    split at h
    · exact .longer _ _ (by simpa using h)
    · rename_i hsize
      obtain rfl : size = size' := by simpa using hsize
      cases kind with
      | skip => cases h
      | token s literal =>
          cases kind' with
          | skip => exact .token s literal size
          | token s' literal' =>
              simp only at h
              split at h
              · rename_i hne
                subst h
                obtain rfl : literal' = false := by simpa using hne.symm
                exact .literal s s' size
              · rename_i heq
                obtain rfl : literal = literal' := by simpa using heq
                exact .lower s s' literal size (by simpa using h)
  · intro h
    cases h with
    | longer _ _ hsize =>
        simp only at hsize
        rw [if_pos (by simp only; omega)]
        simpa using hsize
    | token s literal size => simp
    | literal s s' size => simp
    | lower s s' literal size hid => simpa using hid

theorem eq_of_rank_eq (h : a.rank = b.rank) : a = b := by
  obtain ⟨kind, size⟩ := a
  obtain ⟨kind', size'⟩ := b
  cases kind with
  | skip =>
      cases kind' with
      | skip =>
          simp only [rank] at h
          obtain rfl : size = size' := by omega
          rfl
      | token s' literal' =>
          simp only [rank] at h
          split at h <;> omega
  | token s literal =>
      have hs := index_le s
      cases kind' with
      | skip =>
          simp only [rank] at h
          split at h <;> omega
      | token s' literal' =>
          have hs' := index_le s'
          have hbits : size = size' ∧ literal = literal' ∧ s.index = s'.index := by
            simp only [rank] at h
            cases literal <;> cases literal' <;>
              simp only [if_true, if_false, Bool.false_eq_true] at h
            · exact ⟨by omega, rfl, by omega⟩
            · omega
            · omega
            · exact ⟨by omega, rfl, by omega⟩
          obtain ⟨rfl, rfl, hindex⟩ := hbits
          rw [Symbol.index_injective hindex]

/-- Of two matches one is taken before the other. -/
theorem outranks_or_eq (a b : Candidate) : a.Outranks b ∨ a = b ∨ b.Outranks a := by
  rw [outranks_iff, outranks_iff]
  rcases Nat.lt_trichotomy b.rank a.rank with h | h | h
  · exact .inl h
  · exact .inr (.inl (eq_of_rank_eq h.symm))
  · exact .inr (.inr h)

theorem Outranks.trans (h : a.Outranks b) (h' : b.Outranks c) : a.Outranks c := by
  rw [outranks_iff] at *
  exact Nat.lt_trans h' h

theorem Outranks.asymm (h : a.Outranks b) : ¬b.Outranks a := by
  rw [outranks_iff] at *
  exact Nat.lt_asymm h

end Candidate

/-! ### The choice that the patterns of a table make -/

namespace Table

/-- The patterns of a table, each with the kind of its matches. -/
def patterns (t : Table) : List (PatternKind × String) :=
  t.lexical.tokens.toList.map (fun token => (.token token.symbol token.literal, token.pattern)) ++
    t.lexical.skips.toList.map fun source => (.skip, source)

/-- A pattern matches so many bytes at the front of a text. -/
def MatchesFront (source : String) (rest : List UInt8) (n : Nat) : Prop :=
  ∃ e, Pattern.read? source = some e ∧ e.Matches rest 0 n

variable (t : Table) (mode : LexMode) (rest : List UInt8)

/-- A match, of one byte or more, of a skip or of a token that is valid in the mode. -/
structure IsEligible (c : Candidate) : Prop where
  pos : 1 ≤ c.size
  matchesFront : ∃ source, (c.kind, source) ∈ t.patterns ∧ MatchesFront source rest c.size
  valid : ∀ s literal, c.kind = .token s literal → s ∈ t.validSymbols mode

/-- The eligible match that is taken before all others, if there is any. -/
def IsBest : Option Candidate → Prop
  | none => ∀ c, ¬t.IsEligible mode rest c
  | some c => t.IsEligible mode rest c ∧ ∀ c', t.IsEligible mode rest c' → c' = c ∨ c.Outranks c'

/-- The pattern of words, which is the last one of the word token, matches so many bytes. -/
def MatchesWord (n : Nat) : Prop :=
  ∃ w token, t.lexical.word = some w ∧
    (t.lexical.tokens.toList.filter (·.symbol = w)).getLast? = some token ∧
      MatchesFront token.pattern rest n

/-- The length of the longest word that is not empty. -/
structure IsWordSize (n : Nat) : Prop where
  pos : 1 ≤ n
  matchesWord : t.MatchesWord rest n
  longest : ∀ m, t.MatchesWord rest m → m ≤ n

/-- The keyword with a spelling; of several the last. -/
def keyword? (spelled : List UInt8) : Option Symbol :=
  (t.lexical.keywords.toList.reverse.find? fun k => k.1.toUTF8.data.toList = spelled).map (·.2)

/-- What stands for a word that may be a keyword: of these the first that is valid, or else the
keyword. -/
def wordSymbol (w : Symbol) : Option Symbol → Symbol
  | none => w
  | some keyword =>
    if keyword ∈ t.validSymbols mode then keyword
    else if w ∈ t.validSymbols mode then w
    else keyword

/-- The choice of a token: the best match, unless that is no skip and no longer than a word. -/
inductive Chooses : Option Candidate → Prop
  | best (best : Option Candidate) (hbest : t.IsBest mode rest best)
      (hword : ∀ n, t.IsWordSize rest n → ∃ c ∈ best, c.kind = .skip ∨ n < c.size) :
      Chooses best
  | word (best : Option Candidate) (n : Nat) (w s : Symbol) (hbest : t.IsBest mode rest best)
      (hn : t.IsWordSize rest n) (hshort : ∀ c ∈ best, c.kind ≠ .skip ∧ c.size ≤ n)
      (hw : t.lexical.word = some w) (hs : s = t.wordSymbol mode w (t.keyword? (rest.take n))) :
      Chooses (some ⟨.token s (t.keyword? (rest.take n) == some s), n⟩)

variable {t mode rest}

theorem IsBest.eq {best best' : Option Candidate} (h : t.IsBest mode rest best)
    (h' : t.IsBest mode rest best') : best = best' := by
  cases best with
  | none =>
      cases best' with
      | none => rfl
      | some c' => exact (h c' h'.1).elim
  | some c =>
      cases best' with
      | none => exact (h' c h.1).elim
      | some c' =>
          rcases h.2 c' h'.1 with rfl | hover
          · rfl
          · rcases h'.2 c h.1 with rfl | hover'
            · rfl
            · exact (hover.asymm hover').elim

theorem IsWordSize.eq {n m : Nat} (h : t.IsWordSize rest n) (h' : t.IsWordSize rest m) : n = m :=
  Nat.le_antisymm (h'.longest n h.matchesWord) (h.longest m h'.matchesWord)

theorem Chooses.eq {r r' : Option Candidate} (h : t.Chooses mode rest r)
    (h' : t.Chooses mode rest r') : r = r' := by
  -- the best match and the word cannot both be taken
  have hapart : ∀ (best best' : Option Candidate) (n : Nat), t.IsBest mode rest best →
      t.IsBest mode rest best' → t.IsWordSize rest n →
      (∀ n, t.IsWordSize rest n → ∃ c ∈ best, c.kind = .skip ∨ n < c.size) →
      (∀ c ∈ best', c.kind ≠ .skip ∧ c.size ≤ n) → False := by
    intro best best' n hbest hbest' hn hword hshort
    obtain ⟨c, hc, hlonger⟩ := hword n hn
    rw [hbest.eq hbest'] at hc
    obtain ⟨hkind, hsize⟩ := hshort c hc
    rcases hlonger with hskip | hlt
    · exact hkind hskip
    · omega
  cases h with
  | best _ hbest hword =>
      cases h' with
      | best _ hbest' _ => exact hbest.eq hbest'
      | word best' n _ _ hbest' hn hshort => exact (hapart _ _ n hbest hbest' hn hword hshort).elim
  | word best n w s hbest hn hshort hw hs =>
      cases h' with
      | best _ hbest' hword => exact (hapart _ _ n hbest' hbest hn hword hshort).elim
      | word best' n' w' s' _ hn' _ hw' hs' =>
          obtain rfl := hn.eq hn'
          rw [hw, Option.some.injEq] at hw'
          rw [hs, hs', hw']

end Table

/-! ### What a run finds -/

namespace Lexer

variable {lexer : Lexer} {valid : SymbolSet} {P Q : Nat → Nat → Prop} {found : Found}
  {size pattern : Nat}

/-- A match of a skip or of a valid token, where the patterns match the lengths that a relation
tells. -/
structure IsMatch (lexer : Lexer) (valid : SymbolSet) (P : Nat → Nat → Prop) (c : Candidate) :
    Prop where
  pattern : ∃ p, P p c.size ∧ lexer.patterns[p]? = some c.kind
  valid : ∀ s literal, c.kind = .token s literal → valid.contains s = true

/-- What is found is the best of the matches and the longest word. -/
structure Finds (lexer : Lexer) (valid : SymbolSet) (P : Nat → Nat → Prop) (found : Found) : Prop where
  best : ∀ c ∈ found.best, lexer.IsMatch valid P c
  outranks : ∀ c, lexer.IsMatch valid P c → ∃ b ∈ found.best, b = c ∨ b.Outranks c
  word : found.wordSize = 0 ∨ ∃ w q, lexer.word = some (w, q) ∧ P q found.wordSize
  longest : ∀ w q, lexer.word = some (w, q) → ∀ n, P q n → n ≤ found.wordSize

theorem Finds.congr (h : lexer.Finds valid P found) (heq : ∀ p n, P p n ↔ Q p n) :
    lexer.Finds valid Q found := by
  have hrel : P = Q := by
    funext p n
    exact propext (heq p n)
  rwa [← hrel]

theorem finds_none (lexer : Lexer) (valid : SymbolSet) : lexer.Finds valid (fun _ _ => False) {} :=
  ⟨by simp, fun c h => h.pattern.elim fun _ hp => hp.1.elim, .inl rfl, fun _ _ _ _ h => h.elim⟩

/-- Matches of a kind count in a mode. -/
def countsAs (valid : SymbolSet) : PatternKind → Bool
  | .token s _ => valid.contains s
  | .skip => true

theorem best_add (valid : SymbolSet) (size : Nat) (found : Found) (pattern : Nat) :
    (found.add lexer valid size pattern).best =
      match lexer.patterns[pattern]? with
      | none => found.best
      | some kind =>
        if countsAs valid kind && found.best.all (Candidate.beats ⟨kind, size⟩)
        then some ⟨kind, size⟩ else found.best := by
  have hmarked : (if lexer.word.any (·.2 == pattern) then { found with wordSize := size }
      else found).best = found.best := (apply_ite Found.best _ _ _).trans (ite_self _)
  rw [Found.add]
  cases lexer.patterns[pattern]? with
  | none => exact hmarked
  | some kind =>
      cases kind <;>
        exact (apply_ite Found.best _ _ _).trans (if_congr (by rw [hmarked]; rfl) rfl hmarked)

/-- The matches with one more match of a pattern. -/
theorem isMatch_or_iff {c : Candidate} :
    lexer.IsMatch valid (fun p n => P p n ∨ p = pattern ∧ n = size) c ↔
      lexer.IsMatch valid P c ∨
        c.size = size ∧ lexer.patterns[pattern]? = some c.kind ∧ countsAs valid c.kind = true := by
  have hcounts : (∀ s literal, c.kind = .token s literal → valid.contains s = true) ↔
      countsAs valid c.kind = true := by
    cases c.kind <;> simp [countsAs]
  constructor
  · rintro ⟨⟨p, hp | ⟨rfl, hsize⟩, hkind⟩, hvalid⟩
    · exact .inl ⟨⟨p, hp, hkind⟩, hvalid⟩
    · exact .inr ⟨hsize, hkind, hcounts.1 hvalid⟩
  · rintro (⟨⟨p, hp, hkind⟩, hvalid⟩ | ⟨hsize, hkind, hvalid⟩)
    · exact ⟨⟨p, .inl hp, hkind⟩, hvalid⟩
    · exact ⟨⟨pattern, .inr ⟨rfl, hsize⟩, hkind⟩, hcounts.2 hvalid⟩

/-- The best match with one more is one of the matches. -/
theorem Finds.isMatch_add (h : lexer.Finds valid P found) {c : Candidate}
    (hc : c ∈ (found.add lexer valid size pattern).best) :
    lexer.IsMatch valid (fun p n => P p n ∨ p = pattern ∧ n = size) c := by
  rw [isMatch_or_iff]
  rw [best_add] at hc
  cases hkind : lexer.patterns[pattern]? with
  | none =>
      rw [hkind] at hc
      exact .inl (h.best c hc)
  | some kind =>
      rw [hkind] at hc
      simp only at hc
      split at hc
      · rename_i hnew
        cases hc
        exact .inr ⟨rfl, rfl, (Bool.and_eq_true_iff.1 hnew).1⟩
      · exact .inl (h.best c hc)

/-- It is taken before all of them. -/
theorem Finds.outranks_add (h : lexer.Finds valid P found) {c : Candidate}
    (hc : lexer.IsMatch valid (fun p n => P p n ∨ p = pattern ∧ n = size) c) :
    ∃ b ∈ (found.add lexer valid size pattern).best, b = c ∨ b.Outranks c := by
  rw [isMatch_or_iff] at hc
  rw [best_add]
  cases hkind : lexer.patterns[pattern]? with
  | none =>
      rw [hkind] at hc
      exact h.outranks c (hc.resolve_right nofun)
  | some kind =>
      rw [hkind] at hc
      simp only [Bool.and_eq_true, Option.all_eq_true]
      split
      · rename_i hnew
        refine ⟨_, rfl, ?_⟩
        rcases hc with hc | ⟨hsize, hc, _⟩
        · obtain ⟨b, hb, hover⟩ := h.outranks c hc
          have hfirst := Candidate.beats_iff.1 (hnew.2 b hb)
          rcases hover with rfl | hover
          · exact .inr hfirst
          · exact .inr (hfirst.trans hover)
        · rw [Option.some.injEq] at hc
          rw [hc, ← hsize]
          exact .inl rfl
      · rename_i hold
        rcases hc with hc | ⟨hsize, hc, hcounts⟩
        · exact h.outranks c hc
        · rw [Option.some.injEq] at hc
          subst hc
          -- some match before is not beaten by this one
          obtain ⟨b, hb⟩ := not_forall.1 fun hall => hold ⟨hcounts, hall⟩
          obtain ⟨hb, hnot⟩ := Classical.not_imp.1 hb
          rw [← hsize, Candidate.beats_iff] at hnot
          refine ⟨b, hb, ?_⟩
          rcases Candidate.outranks_or_eq b c with hover | rfl | hover
          · exact .inr hover
          · exact .inl rfl
          · exact absurd hover hnot

/-- One more match of a pattern, no shorter than those before. -/
theorem Finds.add (h : lexer.Finds valid P found) (hle : ∀ p n, P p n → n ≤ size) :
    lexer.Finds valid (fun p n => P p n ∨ p = pattern ∧ n = size)
      (found.add lexer valid size pattern) := by
  refine ⟨fun c hc => h.isMatch_add hc, fun c hc => h.outranks_add hc, ?_, ?_⟩
  · rw [wordSize_add]
    split
    · rename_i hword
      obtain ⟨⟨w, q⟩, hw, hq⟩ := (Option.any_eq_true _ _).1 hword
      exact .inr ⟨w, q, hw, .inr ⟨by simpa using hq, rfl⟩⟩
    · rcases h.word with hzero | ⟨w, q, hw, hP⟩
      · exact .inl hzero
      · exact .inr ⟨w, q, hw, .inl hP⟩
  · intro w q hw n hn
    rw [wordSize_add, hw, Option.any_some]
    split
    · rcases hn with hP | ⟨_, rfl⟩
      · exact hle q n hP
      · exact Nat.le_refl n
    · rename_i hne
      rcases hn with hP | ⟨rfl, _⟩
      · exact h.longest w q hw n hP
      · simp at hne

theorem Finds.addAll (h : lexer.Finds valid P found) (hle : ∀ p n, P p n → n ≤ size)
    (patterns : List Nat) :
    lexer.Finds valid (fun p n => P p n ∨ size ≠ 0 ∧ p ∈ patterns ∧ n = size)
      (found.addAll lexer valid size patterns) := by
  rw [Found.addAll]
  by_cases hzero : size = 0
  · rw [if_pos hzero]
    exact h.congr fun p n => by simp [hzero]
  · rw [if_neg hzero]
    induction patterns generalizing P found with
    | nil => exact h.congr fun p n => by simp
    | cons pattern patterns ih =>
        rw [List.foldl_cons]
        refine (ih (h.add hle) ?_).congr fun p n => ?_
        · rintro p n (hp | ⟨_, rfl⟩)
          · exact hle p n hp
          · exact Nat.le_refl n
        · simp only [List.mem_cons]
          tauto

/-! ### Runs of a lexer -/

section

variable {exprs : List Pattern.Expr} {rest : List UInt8} {text : ByteArray} {start : Nat}

/-- So many bytes at the front of a text, but not none, match a pattern. -/
def MatchesAt (exprs : List Pattern.Expr) (rest : List UInt8) (p n : Nat) : Prop :=
  1 ≤ n ∧ ∃ e, exprs[p]? = some e ∧ e.Matches rest 0 n

theorem finds_addAll_matched {i : Nat} {matched : List Nat}
    (h : lexer.Finds valid (fun p n => MatchesAt exprs rest p n ∧ n < i) found)
    (hmatched : ∀ p, p ∈ matched ↔ ∃ e, exprs[p]? = some e ∧ e.Matches rest 0 i) :
    lexer.Finds valid (fun p n => MatchesAt exprs rest p n ∧ n < i + 1)
      (found.addAll lexer valid i matched) := by
  refine (h.addAll (fun p n hn => Nat.le_of_lt hn.2) matched).congr fun p n => ?_
  rw [hmatched, MatchesAt]
  constructor
  · rintro (⟨hp, hlt⟩ | ⟨hpos, hp, rfl⟩)
    · exact ⟨hp, by omega⟩
    · exact ⟨⟨by omega, hp⟩, by omega⟩
  · rintro ⟨⟨hpos, hp⟩, hlt⟩
    rcases Nat.lt_or_eq_of_le (Nat.le_of_lt_succ hlt) with hlt | rfl
    · exact .inl ⟨⟨hpos, hp⟩, hlt⟩
    · exact .inr ⟨by omega, hp, rfl⟩

/-- A run finds all matches. -/
theorem finds_runFrom (he : ∀ e ∈ exprs, e.CountsInOrder)
    (hautomaton : lexer.automaton = Pattern.Automaton.ofExprs exprs)
    (hrest : rest = text.data.toList.drop start) {i : Nat} {state : Pattern.Automaton.Run}
    (hstands : Pattern.Stands exprs rest i state)
    (hfound : lexer.Finds valid (fun p n => MatchesAt exprs rest p n ∧ n < i) found) :
    lexer.Finds valid (MatchesAt exprs rest) (lexer.runFrom text valid start i state found).1 := by
  have hget : ∀ i, rest[i]? = text[start + i]? := by
    intro i
    rw [hrest, List.getElem?_drop, getElem?_eq_toList]
  -- a dead state reports no match of this length, and none is longer
  have hdead : ∀ i (state : Pattern.Automaton.Run) (found : Found) (hlt : start + i < text.size),
      Pattern.Stands exprs rest i state →
      lexer.Finds valid (fun p n => MatchesAt exprs rest p n ∧ n < i) found →
      (lexer.automaton.step state text[start + i]).isDead = true →
      lexer.Finds valid (MatchesAt exprs rest) found := by
    intro i state found hlt hstands hfound hdead
    have hbyte : rest[i]? = some text[start + i] := by rw [hget, getElem?_pos text _ hlt]
    rw [hautomaton] at hdead
    obtain ⟨hnext, hmatched⟩ := hstands.step he hbyte
    rw [Pattern.Automaton.Run.isDead, Bool.and_eq_true, List.isEmpty_iff, List.isEmpty_iff] at hdead
    refine hfound.congr fun p n => and_iff_left_of_imp ?_
    rintro ⟨_, e, hp, hmatch⟩
    by_contra hge
    rcases Nat.lt_or_eq_of_le (Nat.le_of_not_lt hge) with hlonger | rfl
    · exact hnext.not_matches he hdead.1 hlonger hp hmatch
    · have hmem := (hmatched p).2 ⟨e, hp, hmatch⟩
      rw [hdead.2] at hmem
      cases hmem
  fun_induction lexer.runFrom text valid start i state found with
  | case1 i state found hlt next hnext => exact hdead i state found hlt hstands hfound hnext
  | case2 i state found hlt next hnext => exact hdead i state found hlt hstands hfound hnext
  | case3 i state found hlt next _ ih =>
      have hbyte : rest[i]? = some text[start + i] := by rw [hget, getElem?_pos text _ hlt]
      obtain ⟨hnext, hmatched⟩ := hstands.step he hbyte
      rw [← hautomaton] at hnext hmatched
      exact ih hnext (finds_addAll_matched hfound hmatched)
  | case4 i state found hge =>
      have hend : rest[i]? = none := by rw [hget, getElem?_neg text _ hge]
      have hlast := finds_addAll_matched hfound fun p => hstands.mem_finish_iff he hend (p := p)
      rw [hautomaton]
      refine hlast.congr fun p n => and_iff_left_of_imp ?_
      rintro ⟨_, e, _, hmatch⟩
      have hle := hmatch.le_length (Nat.zero_le _)
      have := List.getElem?_eq_none_iff.1 hend
      omega

end

/-! ### Lexers of tables -/

variable {t : Table}

theorem getElem?_foldl_keywords (keywords : List (String × Symbol)) (spelled : List UInt8) :
    (keywords.foldl (fun map (k : String × Symbol) => map.insert k.1.toUTF8.data.toList k.2)
        ({} : Std.HashMap (List UInt8) Symbol))[spelled]?
      = (keywords.reverse.find? fun k => k.1.toUTF8.data.toList = spelled).map (·.2) := by
  induction keywords using List.reverseRecOn with
  | nil => simp
  | append_singleton keywords k ih =>
      rw [List.foldl_append, List.reverse_append]
      simp only [List.foldl_cons, List.foldl_nil, List.reverse_singleton, List.singleton_append,
        List.find?_cons, Std.HashMap.getElem?_insert, ih]
      by_cases hk : k.1.toUTF8.data.toList = spelled
      · rw [if_pos (by simpa using hk), decide_eq_true hk]
        rfl
      · rw [if_neg (by simpa using hk), decide_eq_false hk]

/-- What the lexer of a table has of it. -/
structure OfTable (lexer : Lexer) (t : Table) (exprs : List Pattern.Expr) : Prop where
  automaton : lexer.automaton = Pattern.Automaton.ofExprs exprs
  counts : ∀ e ∈ exprs, e.CountsInOrder
  exprs : ∀ (p : Nat) (e : Pattern.Expr), exprs[p]? = some e ↔ ∃ kind source,
    t.patterns[p]? = some (kind, source) ∧ Pattern.read? source = some e
  patterns : ∀ p : Nat, lexer.patterns[p]? = t.patterns[p]?.map (·.1)
  word : lexer.word = wordPattern t.lexical
  keywords : ∀ spelled : List UInt8, lexer.keywords[spelled]? = t.keyword? spelled
  valid : ∀ mode s, (lexer.validSymbols mode).set.contains s = true ↔ s ∈ t.validSymbols mode

theorem exists_ofTable (h : Lexer.ofTable t = .ok lexer) : ∃ exprs, lexer.OfTable t exprs := by
  rw [ofTable] at h
  simp only at h
  split at h
  · cases h
  · rename_i exprs hexprs
    cases h
    have hsources : t.lexical.tokens.toList.map (·.pattern) ++ t.lexical.skips.toList
        = t.patterns.map (·.2) := by
      simp [Table.patterns, Function.comp_def]
    rw [hsources] at hexprs
    have hget : ∀ (p : Nat) (e : Pattern.Expr), exprs[p]? = some e ↔ ∃ kind source,
        t.patterns[p]? = some (kind, source) ∧ Pattern.read? source = some e := by
      intro p e
      rw [getElem?_of_mapM_eq_some hexprs, List.getElem?_map, Option.bind_map,
        Option.bind_eq_some_iff, Prod.exists]
      rfl
    refine ⟨exprs, rfl, ?_, hget, ?_, rfl, ?_, ?_⟩
    · intro e hmem
      obtain ⟨p, hp⟩ := List.mem_iff_getElem?.1 hmem
      obtain ⟨_, source, _, hread⟩ := (hget p e).1 hp
      exact Pattern.countsInOrder_of_read? hread
    · intro p
      rw [← Array.getElem?_toList, ← List.getElem?_map]
      simp [Table.patterns, Function.comp_def]
    · intro spelled
      simp only
      rw [← Array.foldl_toList]
      exact getElem?_foldl_keywords _ spelled
    · intro mode s
      rw [validSymbols, Table.validSymbols]
      simp only
      rw [Array.getD_eq_getD_getElem?, Array.getD_eq_getD_getElem?, Array.getElem?_map]
      cases t.lexModes[mode.toNat]? with
      | none => simp
      | some symbols => simp [SymbolSet.contains_ofList]

section

variable {exprs : List Pattern.Expr} {rest : List UInt8} {mode : LexMode}

theorem OfTable.isMatch_iff (h : lexer.OfTable t exprs) {c : Candidate} :
    lexer.IsMatch (lexer.validSymbols mode).set (MatchesAt exprs rest) c ↔
      t.IsEligible mode rest c := by
  constructor
  · rintro ⟨⟨p, ⟨hpos, e, hp, hmatch⟩, hkind⟩, hvalid⟩
    obtain ⟨kind, source, hpattern, hread⟩ := (h.exprs p e).1 hp
    rw [h.patterns, hpattern, Option.map_some, Option.some.injEq] at hkind
    subst hkind
    refine ⟨hpos, ⟨source, List.mem_of_getElem? hpattern, e, hread, hmatch⟩, ?_⟩
    intro s literal hs
    exact (h.valid mode s).1 (hvalid s literal hs)
  · rintro ⟨hpos, ⟨source, hmem, e, hread, hmatch⟩, hvalid⟩
    obtain ⟨p, hp⟩ := List.mem_iff_getElem?.1 hmem
    refine ⟨⟨p, ⟨hpos, e, (h.exprs p e).2 ⟨_, source, hp, hread⟩, hmatch⟩, ?_⟩, ?_⟩
    · rw [h.patterns, hp]
      rfl
    · intro s literal hs
      exact (h.valid mode s).2 (hvalid s literal hs)

/-- The word pattern of the lexer is the last one of the word token. -/
theorem wordPattern_eq_some_iff {spec : LexicalSpec} {w : Symbol} {q : Nat} :
    wordPattern spec = some (w, q) ↔ spec.word = some w ∧
      ((spec.tokens.toList.zipIdx.filter fun (t, _) => t.symbol = w).getLast?).map (·.2) = some q := by
  rw [wordPattern, Option.bind_eq_some_iff]
  constructor
  · rintro ⟨w', hw, hq⟩
    obtain ⟨entry, hlast, heq⟩ := Option.map_eq_some_iff.1 hq
    cases heq
    exact ⟨hw, by rw [hlast]; rfl⟩
  · rintro ⟨hw, hq⟩
    obtain ⟨entry, hlast, rfl⟩ := Option.map_eq_some_iff.1 hq
    exact ⟨w, hw, by rw [hlast]; rfl⟩

theorem OfTable.matchesWord_iff (h : lexer.OfTable t exprs) {n : Nat} (hpos : 1 ≤ n) :
    t.MatchesWord rest n ↔ ∃ w q, lexer.word = some (w, q) ∧ MatchesAt exprs rest q n := by
  have hfilter : ∀ w : Symbol, t.lexical.tokens.toList.filter (fun token => token.symbol = w)
      = (t.lexical.tokens.toList.zipIdx.filter fun (t, _) => t.symbol = w).map (·.1) := by
    intro w
    conv_lhs => rw [← List.zipIdx_map_fst 0 t.lexical.tokens.toList]
    rw [List.filter_map]
    rfl
  have hpattern : ∀ (token : TokenDef) (q : Nat), t.lexical.tokens.toList[q]? = some token →
      t.patterns[q]? = some (.token token.symbol token.literal, token.pattern) := by
    intro token q hq
    have hlt := (List.getElem?_eq_some_iff.1 hq).1
    rw [Table.patterns, List.getElem?_append_left (by rwa [List.length_map]), List.getElem?_map, hq]
    rfl
  constructor
  · rintro ⟨w, token, hw, hlast, e, hread, hmatch⟩
    rw [hfilter, List.getLast?_map] at hlast
    obtain ⟨⟨_, q⟩, hentry, rfl⟩ := Option.map_eq_some_iff.1 hlast
    have hmem := (List.mem_filter.1 (List.mem_of_getLast? hentry)).1
    refine ⟨w, q, ?_, hpos, e, ?_, hmatch⟩
    · rw [h.word, wordPattern_eq_some_iff]
      exact ⟨hw, by rw [hentry]; rfl⟩
    · exact (h.exprs q e).2 ⟨_, _, hpattern _ q (List.mem_zipIdx_iff_getElem?.1 hmem), hread⟩
  · rintro ⟨w, q, hw, _, e, hq, hmatch⟩
    rw [h.word, wordPattern_eq_some_iff] at hw
    obtain ⟨hw, hlast⟩ := hw
    obtain ⟨⟨token, q'⟩, hentry, rfl⟩ := Option.map_eq_some_iff.1 hlast
    have hmem := (List.mem_filter.1 (List.mem_of_getLast? hentry)).1
    obtain ⟨kind, source, hpattern', hread⟩ := (h.exprs _ e).1 hq
    rw [hpattern token _ (List.mem_zipIdx_iff_getElem?.1 hmem), Option.some.injEq,
      Prod.mk.injEq] at hpattern'
    refine ⟨w, token, hw, ?_, e, hpattern'.2 ▸ hread, hmatch⟩
    rw [hfilter, List.getLast?_map, hentry]
    rfl

variable {found : Found}

theorem OfTable.isBest (h : lexer.OfTable t exprs)
    (hfound : lexer.Finds (lexer.validSymbols mode).set (MatchesAt exprs rest) found) :
    t.IsBest mode rest found.best := by
  cases hbest : found.best with
  | none =>
      intro c hc
      obtain ⟨b, hb, _⟩ := hfound.outranks c (h.isMatch_iff.2 hc)
      rw [hbest] at hb
      cases hb
  | some c =>
      refine ⟨h.isMatch_iff.1 (hfound.best c hbest), ?_⟩
      intro c' hc'
      obtain ⟨b, hb, hover⟩ := hfound.outranks c' (h.isMatch_iff.2 hc')
      rw [hbest, Option.mem_some_iff] at hb
      subst hb
      exact hover.imp_left Eq.symm

theorem OfTable.isWordSize_iff (h : lexer.OfTable t exprs)
    (hfound : lexer.Finds (lexer.validSymbols mode).set (MatchesAt exprs rest) found) {n : Nat} :
    t.IsWordSize rest n ↔ 1 ≤ n ∧ n = found.wordSize := by
  have hlongest : ∀ m, 1 ≤ m → t.MatchesWord rest m → m ≤ found.wordSize := by
    intro m hpos hm
    obtain ⟨w, q, hw, hmatch⟩ := (h.matchesWord_iff hpos).1 hm
    exact hfound.longest w q hw m hmatch
  have hsize : 1 ≤ found.wordSize → t.MatchesWord rest found.wordSize := by
    intro hpos
    exact (h.matchesWord_iff hpos).2 (hfound.word.resolve_left (by omega))
  constructor
  · rintro ⟨hpos, hword, hle⟩
    have hn := hlongest n hpos hword
    exact ⟨hpos, Nat.le_antisymm hn (hle _ (hsize (by omega)))⟩
  · rintro ⟨hpos, rfl⟩
    refine ⟨hpos, hsize hpos, ?_⟩
    intro m hm
    by_cases hzero : m = 0
    · omega
    · exact hlongest m (by omega) hm

end

theorem preferWord_eq {text : ByteArray} {start : Nat} {found : Found} {w : Symbol} {q : Nat}
    (hword : lexer.word = some (w, q)) :
    lexer.preferWord text valid start found =
      if 1 ≤ found.wordSize ∧ ∀ c ∈ found.best, c.kind ≠ .skip ∧ c.size ≤ found.wordSize then
        let keyword := lexer.keywords[(text.extract start (start + found.wordSize)).data.toList]?
        let s := if keyword.any valid.contains then keyword.getD w
          else if valid.contains w then w else keyword.getD w
        some ⟨.token s (keyword == some s), found.wordSize⟩
      else found.best := by
  rw [preferWord, hword]
  simp only
  refine if_congr ?_ rfl rfl
  cases found.best with
  | none => simp [Nat.succ_le_iff]
  | some c =>
      obtain ⟨kind, size⟩ := c
      cases kind <;> simp [Nat.succ_le_iff]

theorem OfTable.wordSymbol_eq {exprs : List Pattern.Expr} (h : lexer.OfTable t exprs)
    (mode : LexMode) (w : Symbol) (keyword : Option Symbol) :
    (if keyword.any (lexer.validSymbols mode).set.contains then keyword.getD w
      else if (lexer.validSymbols mode).set.contains w then w else keyword.getD w)
        = t.wordSymbol mode w keyword := by
  cases keyword with
  | none => simp [Table.wordSymbol]
  | some keyword => simp [Table.wordSymbol, h.valid]

/-- Preferring words to what a run finds makes the choice that the patterns make. -/
theorem OfTable.chooses_preferWord {exprs : List Pattern.Expr} (h : lexer.OfTable t exprs)
    {text : ByteArray} {start : Nat} {mode : LexMode} {found : Found}
    (hfound : lexer.Finds (lexer.validSymbols mode).set
      (MatchesAt exprs (text.data.toList.drop start)) found) :
    t.Chooses mode (text.data.toList.drop start)
      (lexer.preferWord text (lexer.validSymbols mode).set start found) := by
  have hbest := h.isBest hfound
  have hspelled : (text.extract start (start + found.wordSize)).data.toList
      = (text.data.toList.drop start).take found.wordSize := by
    rw [ByteArray.data_extract, Array.toList_extract, List.extract_eq_take_drop,
      Nat.add_sub_cancel_left]
  cases hword : lexer.word with
  | none =>
      rw [preferWord, hword]
      refine .best _ hbest fun n hn => ?_
      obtain ⟨w, q, hw, _⟩ := (h.matchesWord_iff hn.pos).1 hn.matchesWord
      rw [hword] at hw
      cases hw
  | some entry =>
      obtain ⟨w, q⟩ := entry
      have hw : t.lexical.word = some w := (wordPattern_eq_some_iff.1 (h.word ▸ hword)).1
      rw [preferWord_eq hword]
      split
      · rename_i hlonger
        obtain ⟨hpos, hshort⟩ := hlonger
        simp only [hspelled, h.keywords, h.wordSymbol_eq]
        exact .word _ _ w _ hbest ((h.isWordSize_iff hfound).2 ⟨hpos, rfl⟩) hshort hw rfl
      · rename_i hnot
        refine .best _ hbest fun n hn => ?_
        obtain ⟨hpos, rfl⟩ := (h.isWordSize_iff hfound).1 hn
        by_contra hnone
        refine hnot ⟨hpos, fun c hc => ?_⟩
        exact ⟨fun hskip => hnone ⟨c, hc, .inl hskip⟩,
          Nat.le_of_not_lt fun hlt => hnone ⟨c, hc, .inr hlt⟩⟩

/-- A run of the lexer of a table makes the choice that the patterns of the table make. -/
theorem chooses_run (h : Lexer.ofTable t = .ok lexer) (text : ByteArray) (start : Nat)
    (mode : LexMode) :
    t.Chooses mode (text.data.toList.drop start) (lexer.run text start mode).1 := by
  obtain ⟨exprs, hof⟩ := exists_ofTable h
  have hfound := finds_runFrom hof.counts hof.automaton (rfl : _ = text.data.toList.drop start)
    (hof.automaton ▸ Pattern.stands_begin exprs _)
    ((finds_none lexer (lexer.validSymbols mode).set).congr fun p n => by simp)
  exact hof.chooses_preferWord hfound

/-- A run of the lexer of a table makes just the choice that the patterns of the table make. -/
theorem run_eq_iff_chooses (h : Lexer.ofTable t = .ok lexer) (text : ByteArray) (start : Nat)
    (mode : LexMode) (r : Option Candidate) :
    (lexer.run text start mode).1 = r ↔ t.Chooses mode (text.data.toList.drop start) r := by
  have hchoice := chooses_run h text start mode
  constructor
  · rintro rfl
    exact hchoice
  · exact hchoice.eq

/-- In the mode of errors the keyword is valid and takes the place of the word that spells it. -/
theorem chooses_words : ∃ lexer, Lexer.ofTable .words = .ok lexer ∧
    (lexer.run "if so".toUTF8 0 LexMode.error).1 = some ⟨.token ⟨1⟩ true, 2⟩ ∧
    Table.words.Chooses LexMode.error ("if so".toUTF8.data.toList.drop 0)
      (some ⟨.token ⟨1⟩ true, 2⟩) := by
  have hfound : (words.runFrom "if so".toUTF8 (words.validSymbols LexMode.error).set 0 0
      (words.automaton.begin none) {}).1 = ⟨some ⟨.token ⟨2⟩ false, 2⟩, 2⟩ := by
    decide +kernel
  have hspelled : ("if so".toUTF8.extract 0 (0 + 2)).data.toList = [105, 102] := by decide +kernel
  have hkeyword : words.keywords[([105, 102] : List UInt8)]? = some ⟨1⟩ := by simp [words]
  have hvalid : (words.validSymbols LexMode.error).set.contains ⟨1⟩ = true := by decide +kernel
  have hrun : (words.run "if so".toUTF8 0 LexMode.error).1 = some ⟨.token ⟨1⟩ true, 2⟩ := by
    rw [run]
    simp only [hfound]
    rw [preferWord_eq (w := ⟨2⟩) (q := 0) rfl]
    simp only [hspelled, hkeyword]
    simp [hvalid]
  exact ⟨words, ofTable_words, hrun, (run_eq_iff_chooses ofTable_words _ 0 _ _).1 hrun⟩

end Lexer

end IncrementalLR
