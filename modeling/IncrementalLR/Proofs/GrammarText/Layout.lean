import IncrementalLR.Proofs.GrammarText.Phrases

/-!
# White space and comments of a grammar file

The tokenizer cuts a file into lexemes: tokens, and white space and comments between them. Where a lexeme
ends is settled by the character behind it at most, and no token goes on with a blank or a slash. So
other white space and comments between two tokens leave the tokens as they are, and what the reader makes
of tokens does not depend on their places.
-/

namespace IncrementalLR.GrammarText

/-- A part of a file that is scanned at once. It has no token if it is white space or a comment. -/
structure Lexeme where
  text : List Char
  token : Option (Except LexicalError Token)

def lexemes : List Char → List Lexeme
  | [] => []
  | c :: cs =>
    ⟨c :: cs.take (scan c cs).more, (scan c cs).token⟩ :: lexemes (cs.drop (scan c cs).more)
  termination_by cs => cs.length
  decreasing_by simp only [List.length_drop, List.length_cons]; omega

def textOf (ls : List Lexeme) : List Char := ls.flatMap (·.text)

def tokensOf (ls : List Lexeme) : List (Except LexicalError Token) := ls.filterMap (·.token)

/-- White space and comments, each comment with the end of its line. -/
inductive IsLayout : List Char → Prop
  | nil : IsLayout []
  | blank (c : Char) (cs : List Char) (hc : isBlank c = true) (h : IsLayout cs) : IsLayout (c :: cs)
  | comment (body cs : List Char) (hbody : '\n' ∉ body) (h : IsLayout cs) :
      IsLayout ('/' :: '/' :: (body ++ '\n' :: cs))

@[simp] theorem lexemes_nil : lexemes [] = [] := by rw [lexemes]

theorem lexemes_cons (c : Char) (cs : List Char) :
    lexemes (c :: cs) =
      ⟨c :: cs.take (scan c cs).more, (scan c cs).token⟩ :: lexemes (cs.drop (scan c cs).more) := by
  rw [lexemes]

@[simp] theorem textOf_nil : textOf [] = [] := rfl

@[simp] theorem textOf_cons (l : Lexeme) (ls : List Lexeme) : textOf (l :: ls) = l.text ++ textOf ls :=
  rfl

@[simp] theorem textOf_append (ls ls' : List Lexeme) : textOf (ls ++ ls') = textOf ls ++ textOf ls' :=
  List.flatMap_append

@[simp] theorem tokensOf_append (ls ls' : List Lexeme) :
    tokensOf (ls ++ ls') = tokensOf ls ++ tokensOf ls' := List.filterMap_append

theorem tokensOf_eq_nil {ls : List Lexeme} (h : ∀ l ∈ ls, l.token = none) : tokensOf ls = [] :=
  List.filterMap_eq_nil_iff.2 h

theorem textOf_lexemes (cs : List Char) : textOf (lexemes cs) = cs := by
  induction cs using lexemes.induct with
  | case1 => simp
  | case2 c cs ih => rw [lexemes_cons, textOf_cons, ih, List.cons_append, List.take_append_drop]

/-- What stands from the start of a lexeme on is cut in the same way on its own. -/
theorem lexemes_textOf {cs : List Char} {front back : List Lexeme} (h : lexemes cs = front ++ back) :
    lexemes (textOf back) = back := by
  induction front generalizing cs with
  | nil =>
      rw [List.nil_append] at h
      rw [← h, textOf_lexemes]
  | cons l front ih =>
      cases cs with
      | nil => simp at h
      | cons c cs =>
          rw [lexemes_cons, List.cons_append] at h
          exact ih (List.cons.inj h).2

/-! ### Where a lexeme ends -/

theorem countWhile_le (p : Char → Bool) (cs : List Char) : countWhile p cs ≤ cs.length :=
  (List.takeWhile_prefix p).length_le

theorem countWhile_ne_zero {p : Char → Bool} {c : Char} {cs : List Char} (hc : cs.head? = some c)
    (hp : p c = true) : countWhile p cs ≠ 0 := by
  cases cs with
  | nil => simp at hc
  | cons d cs =>
      obtain rfl : d = c := by simpa using hc
      simp [countWhile, hp]

theorem itemsLength_le (close : Char) (cs : List Char) : itemsLength close cs ≤ cs.length := by
  fun_induction itemsLength close cs <;> simp only [List.length_cons, List.length_nil] <;> omega

/-- A run of characters is as long before another text that cannot go on with it. -/
theorem countWhile_append {p : Char → Bool} {run rest rest' : List Char}
    (h : countWhile p (run ++ rest) = run.length)
    (hrest : ∀ d ∈ rest'.head?, d ∈ rest.head? ∨ p d = false) :
    countWhile p (run ++ rest') = run.length := by
  induction run with
  | nil =>
      cases rest' with
      | nil => rfl
      | cons d rest' =>
          have hd : p d = false := by
            rcases hrest d rfl with hmem | hd
            · cases rest with
              | nil => simp at hmem
              | cons e rest =>
                  obtain rfl : e = d := by simpa using hmem
                  simpa [countWhile, List.takeWhile_cons] using h
            · exact hd
          simp [countWhile, hd]
  | cons c run ih =>
      by_cases hc : p c = true
      · simp only [countWhile, List.cons_append, List.takeWhile_cons, hc, if_true,
          List.length_cons, Nat.add_right_cancel_iff] at h ih ⊢
        exact ih h
      · simp [countWhile, hc] at h

@[simp] theorem itemsLength_escape (close c : Char) (cs : List Char) :
    itemsLength close ('\\' :: c :: cs) = if c = '\n' then 0 else itemsLength close cs + 2 := rfl

theorem itemsLength_cons {close c : Char} (hc : c ≠ '\\') (cs : List Char) :
    itemsLength close (c :: cs) =
      if c = close ∨ c = '\n' then 0 else itemsLength close cs + 1 := by
  cases cs <;> simp [itemsLength, hc]

/-- The items in front of a delimiter are as many characters whatever stands behind it. -/
theorem itemsLength_append {close : Char} {items rest rest' : List Char} (hclose : close ≠ '\\')
    (h : itemsLength close (items ++ close :: rest) = items.length) :
    itemsLength close (items ++ close :: rest') = items.length := by
  induction hn : items.length using Nat.strongRecOn generalizing items with
  | ind n ih =>
      subst hn
      cases items with
      | nil => simp [itemsLength_cons hclose]
      | cons c items =>
          by_cases hc : c = '\\'
          · subst hc
            cases items with
            | nil =>
                -- the backslash would take the delimiter with it
                simp only [List.singleton_append, itemsLength_escape] at h
                split at h <;> simp at h
            | cons d items =>
                simp only [List.cons_append, itemsLength_escape, List.length_cons] at h ih ⊢
                split at h
                · simp at h
                · rename_i hd
                  rw [if_neg hd, ih items.length (by omega) (by omega) rfl]
          · simp only [List.cons_append, itemsLength_cons hc, List.length_cons] at h ih ⊢
            split at h
            · simp at h
            · rename_i hstop
              rw [if_neg hstop, ih items.length (by omega) (by omega) rfl]

/-- A delimited text is the same whatever stands behind it. -/
theorem scanDelimited_append {close c : Char} {least : Nat} {make : List Char → Token}
    {body rest rest' : List Char} {token : Option (Except LexicalError Token)} (hclose : close ≠ '\\')
    (h : scanDelimited close least make c (body ++ rest) = ⟨token, body.length⟩)
    (htoken : ∀ e, token ≠ some (.error e)) :
    scanDelimited close least make c (body ++ rest') = ⟨token, body.length⟩ := by
  simp only [scanDelimited] at h
  split at h
  · rename_i hfound
    obtain ⟨rfl, hlength⟩ := Scan.mk.inj h
    rcases List.eq_nil_or_concat body with rfl | ⟨items, d, rfl⟩
    · simp at hlength
    · rw [List.concat_eq_append] at *
      have hitems : itemsLength close (items ++ [d] ++ rest) = items.length := by
        simpa using hlength
      rw [hitems, List.append_assoc, List.drop_left, List.singleton_append] at hfound
      obtain ⟨hleast, hd⟩ := hfound
      obtain rfl : d = close := by simpa using hd
      have hitems' : itemsLength d (items ++ d :: rest') = items.length :=
        itemsLength_append hclose (by simpa using hitems)
      rw [hitems]
      simp [scanDelimited, hitems', hleast]
  · exact absurd (Scan.mk.inj h).1.symm (htoken _)

theorem scanDelimited_more_ne_zero {close c : Char} {least n : Nat} {make : List Char → Token}
    {cs : List Char} {token : Option (Except LexicalError Token)}
    (h : scanDelimited close least make c cs = ⟨token, n⟩) (htoken : ∀ e, token ≠ some (.error e)) :
    n ≠ 0 := by
  simp only [scanDelimited] at h
  split at h
  · rw [← (Scan.mk.inj h).2]
    exact Nat.succ_ne_zero _
  · exact absurd (Scan.mk.inj h).1.symm (htoken _)

theorem scanDelimited_more_le (close : Char) (least : Nat) (make : List Char → Token) (c : Char)
    (cs : List Char) : (scanDelimited close least make c cs).more ≤ cs.length := by
  simp only [scanDelimited]
  split
  · rename_i hfound
    rcases Nat.lt_or_ge (itemsLength close cs) cs.length with hlt | hle
    · exact hlt
    · rw [List.drop_eq_nil_of_le hle] at hfound
      simp at hfound
  · exact itemsLength_le close cs

theorem isDirectiveRest_eq_false {c : Char} (h : isIdentRest c = false) : isDirectiveRest c = false := by
  simp only [isIdentRest, isIdentStart, Bool.or_eq_false_iff] at h
  simp only [isDirectiveRest, h.1.1.2, h.1.2, Bool.or_self]

theorem isDigit_eq_false {c : Char} (h : isIdentRest c = false) : isDigit c = false := by
  simp only [isIdentRest, Bool.or_eq_false_iff] at h
  exact h.2

/-- A lexeme is scanned in the same way before another text, if that starts with the same character, or
if the lexeme is a token and no name goes on with the other text. -/
theorem scan_append {c : Char} {body rest rest' : List Char}
    {token : Option (Except LexicalError Token)}
    (h : scan c (body ++ rest) = ⟨token, body.length⟩) (htoken : ∀ e, token ≠ some (.error e))
    (hrest : ∀ d ∈ rest'.head?, d ∈ rest.head? ∨ token ≠ none ∧ isIdentRest d = false) :
    scan c (body ++ rest') = ⟨token, body.length⟩ := by
  have hsame : ∀ p : Char → Bool, (token ≠ none → ∀ d, isIdentRest d = false → p d = false) →
      countWhile p (body ++ rest) = body.length → countWhile p (body ++ rest') = body.length :=
    fun p hp hn => countWhile_append hn fun d hd => (hrest d hd).imp_right fun h => hp h.1 d h.2
  -- an arrow and a comment are told by the character behind the first, which is of the lexeme
  have hhead : body.length ≠ 0 → (body ++ rest').head? = (body ++ rest).head? := by
    intro hbody
    cases body with
    | nil => exact absurd rfl hbody
    | cons d body => rfl
  unfold scan at h ⊢
  split at h
  -- punctuation
  iterate 9 exact h
  all_goals dsimp only at h ⊢
  · -- a directive
    split at h
    · exact absurd (Scan.mk.inj h).1.symm (htoken _)
    · rename_i hpos
      obtain ⟨rfl, hn⟩ := Scan.mk.inj h
      rw [hn] at hpos
      rw [hn, hsame _ (fun _ _ => isDirectiveRest_eq_false) hn, if_neg hpos, List.take_left,
        List.take_left]
  · -- an arrow or an integer
    split at h
    · rename_i hd
      obtain ⟨rfl, hn⟩ := Scan.mk.inj h
      rw [hhead (by omega), if_pos hd, hn]
    · rename_i hd
      split at h
      · exact absurd (Scan.mk.inj h).1.symm (htoken _)
      · rename_i hpos
        obtain ⟨rfl, hn⟩ := Scan.mk.inj h
        rw [hn] at hpos
        rw [hhead hpos, if_neg hd, hn, hsame _ (fun _ _ => isDigit_eq_false) hn, if_neg hpos,
          List.take_left, List.take_left]
  · -- a quoted literal
    exact scanDelimited_append (by decide) h htoken
  · -- a comment or a pattern
    split at h
    · rename_i hd
      obtain ⟨rfl, hn⟩ := Scan.mk.inj h
      have hbody : body.length ≠ 0 := by
        rw [← hn]
        exact countWhile_ne_zero hd (by decide)
      rw [hhead hbody, if_pos hd, hsame _ (fun h => absurd rfl h) hn]
    · rename_i hd
      rw [hhead (scanDelimited_more_ne_zero h htoken), if_neg hd]
      exact scanDelimited_append (by decide) h htoken
  · split at h
    · -- white space
      rename_i hc
      obtain ⟨rfl, hn⟩ := Scan.mk.inj h
      rw [if_pos hc, hsame _ (fun h => absurd rfl h) hn]
    · rename_i hc
      rw [if_neg hc]
      split at h
      · -- a name
        rename_i hc
        obtain ⟨rfl, hn⟩ := Scan.mk.inj h
        rw [if_pos hc, hn, hsame _ (fun _ _ => id) hn, List.take_left, List.take_left]
      · rename_i hc
        rw [if_neg hc]
        split at h
        · -- an integer
          rename_i hc
          obtain ⟨rfl, hn⟩ := Scan.mk.inj h
          rw [if_pos hc, hn, hsame _ (fun _ _ => isDigit_eq_false) hn, List.take_left, List.take_left]
        · exact absurd (Scan.mk.inj h).1.symm (htoken _)

theorem scan_more_le (c : Char) (cs : List Char) : (scan c cs).more ≤ cs.length := by
  unfold scan
  split
  iterate 9 exact Nat.zero_le _
  all_goals dsimp only
  · split
    · exact Nat.zero_le _
    · exact countWhile_le _ _
  · split
    · rename_i hd
      cases cs with
      | nil => simp at hd
      | cons d cs => exact Nat.succ_le_succ (Nat.zero_le _)
    · split
      · exact Nat.zero_le _
      · exact countWhile_le _ _
  · exact scanDelimited_more_le _ _ _ _ _
  · split
    · exact countWhile_le _ _
    · exact scanDelimited_more_le _ _ _ _ _
  · split
    · exact countWhile_le _ _
    · split
      · exact countWhile_le _ _
      · split
        · exact countWhile_le _ _
        · exact Nat.zero_le _

/-! ### Lexemes before another text -/

theorem textOf_ne_nil {cs : List Char} {l : Lexeme} {ls back : List Lexeme}
    (h : lexemes cs = l :: ls ++ back) : textOf (l :: ls) ≠ [] := by
  cases cs with
  | nil => simp at h
  | cons c cs =>
      rw [lexemes_cons, List.cons_append] at h
      rw [← (List.cons.inj h).1, textOf_cons]
      exact List.cons_ne_nil _ _

/-- Lexemes up to a token are the same before a text that no name goes on with. -/
theorem lexemes_append {cs rest : List Char} {front back : List Lexeme}
    (h : lexemes cs = front ++ back) (hok : ∀ l ∈ front, ∀ e, l.token ≠ some (.error e))
    (hlast : ∀ l ∈ front.getLast?, l.token ≠ none)
    (hrest : ∀ d ∈ rest.head?, isIdentRest d = false) :
    lexemes (textOf front ++ rest) = front ++ lexemes rest := by
  induction front generalizing cs with
  | nil => rfl
  | cons l front ih =>
      cases cs with
      | nil => simp at h
      | cons c cs =>
          rw [lexemes_cons, List.cons_append] at h
          obtain ⟨rfl, htail⟩ := List.cons.inj h
          have hlast' : ∀ l ∈ front.getLast?, l.token ≠ none := by
            cases front with
            | nil => simp
            | cons l' front => simpa using hlast
          have hbehind := ih htail (fun l hl => hok l (List.mem_cons_of_mem _ hl)) hlast'
          have hhead : ∀ d ∈ (textOf front ++ rest).head?,
              d ∈ (cs.drop (scan c cs).more).head? ∨
                (scan c cs).token ≠ none ∧ isIdentRest d = false := by
            cases front with
            | nil => exact fun d hd => .inr ⟨hlast _ rfl, hrest d hd⟩
            | cons l' front =>
                obtain ⟨e, es, htext⟩ := List.exists_cons_of_ne_nil (textOf_ne_nil htail)
                rw [← textOf_lexemes (cs.drop _), htail, textOf_append, htext]
                exact fun d hd => .inl hd
          have hlength : (cs.take (scan c cs).more).length = (scan c cs).more := by
            rw [List.length_take, Nat.min_eq_left (scan_more_le c cs)]
          have hscan : scan c (cs.take (scan c cs).more ++ (textOf front ++ rest)) = scan c cs := by
            have hown : scan c (cs.take (scan c cs).more ++ cs.drop (scan c cs).more) =
                ⟨(scan c cs).token, (cs.take (scan c cs).more).length⟩ := by
              rw [List.take_append_drop, hlength]
            rw [scan_append hown (hok _ List.mem_cons_self) hhead, hlength]
          rw [textOf_cons, List.cons_append, List.cons_append, List.append_assoc, lexemes_cons, hscan,
            List.take_left' hlength, List.drop_left' hlength, hbehind, List.cons_append]

/-! ### White space and comments -/

theorem isIdentRest_eq_false_of_isBlank {c : Char} (h : isBlank c = true) : isIdentRest c = false := by
  simp only [isBlank, Bool.or_eq_true, beq_iff_eq] at h
  rcases h with (((rfl | rfl) | rfl) | rfl) | rfl <;> decide

theorem scan_of_isBlank {c : Char} (h : isBlank c = true) (cs : List Char) :
    scan c cs = ⟨none, countWhile isBlank cs⟩ := by
  have hc := h
  simp only [isBlank, Bool.or_eq_true, beq_iff_eq] at hc
  rcases hc with (((rfl | rfl) | rfl) | rfl) | rfl <;> rfl

theorem scan_comment (cs : List Char) :
    scan '/' ('/' :: cs) = ⟨none, countWhile (· != '\n') cs + 1⟩ := rfl

/-- A blank in front of a text makes no token. -/
theorem tokensOf_blank {c : Char} (hc : isBlank c = true) (cs : List Char) :
    tokensOf (lexemes (c :: cs)) = tokensOf (lexemes cs) := by
  have hskip : tokensOf (lexemes (c :: cs)) =
      tokensOf (lexemes (cs.drop (countWhile isBlank cs))) := by
    rw [lexemes_cons, scan_of_isBlank hc]
    rfl
  rw [hskip]
  cases cs with
  | nil => rfl
  | cons d cs =>
      by_cases hd : isBlank d = true
      · -- the blanks behind the first are skipped with it, and the first of them skips the same
        rw [lexemes_cons d, scan_of_isBlank hd]
        simp [countWhile, hd, tokensOf]
      · simp [countWhile, hd]

theorem tokensOf_comment {body : List Char} (hbody : '\n' ∉ body) (cs : List Char) :
    tokensOf (lexemes ('/' :: '/' :: (body ++ '\n' :: cs))) = tokensOf (lexemes cs) := by
  have hlength : countWhile (· != '\n') (body ++ '\n' :: cs) = body.length := by
    have hin : ∀ c ∈ body, (c != '\n') = true := fun c hc =>
      bne_iff_ne.2 fun heq => hbody (heq ▸ hc)
    rw [countWhile, List.takeWhile_append_of_pos hin]
    simp
  have hskip : tokensOf (lexemes ('/' :: '/' :: (body ++ '\n' :: cs))) =
      tokensOf (lexemes ('\n' :: cs)) := by
    rw [lexemes_cons, scan_comment, hlength, List.drop_succ_cons, List.drop_left]
    rfl
  rw [hskip, tokensOf_blank rfl]

theorem tokensOf_layout {layout : List Char} (h : IsLayout layout) (cs : List Char) :
    tokensOf (lexemes (layout ++ cs)) = tokensOf (lexemes cs) := by
  induction h with
  | nil => rfl
  | blank c rest hc _ ih => rw [List.cons_append, tokensOf_blank hc, ih]
  | comment body rest hbody _ ih =>
      rw [List.cons_append, List.cons_append, List.append_assoc, List.cons_append,
        tokensOf_comment hbody, ih]

theorem isIdentRest_head_layout {layout cs : List Char} (h : IsLayout layout) (hne : layout ≠ []) :
    ∀ d ∈ (layout ++ cs).head?, isIdentRest d = false := by
  cases h with
  | nil => exact absurd rfl hne
  | blank c rest hc _ =>
      intro d hd
      obtain rfl : c = d := by simpa using hd
      exact isIdentRest_eq_false_of_isBlank hc
  | comment body rest _ _ =>
      intro d hd
      obtain rfl : '/' = d := by simpa using hd
      decide

/-! ### What the reader makes of tokens -/

/-- What a declaration adds to a definition. -/
def Item.addTo (g : GrammarDef) : Item → Except DirectiveError GrammarDef
  | .rule name body => .ok { g with rules := g.rules ++ [(name, body)] }
  | .directive name args _ => applyDirective g name args

theorem tokensOf_cons (l : Lexeme) (ls : List Lexeme) :
    tokensOf (l :: ls) = l.token.toList ++ tokensOf ls := by
  cases hl : l.token <;> simp [tokensOf, hl]

/-- The tokens that the tokenizer gives are those of the lexemes, if none of these is no token. -/
theorem tokenizeFrom_eq_ok_iff {place : Place} {cs : List Char} {ts : List Token} :
    (∃ r, tokenizeFrom place cs = .ok r ∧ r.1.map (·.2) = ts) ↔
      tokensOf (lexemes cs) = ts.map .ok := by
  induction cs using lexemes.induct generalizing place ts with
  | case1 => cases ts <;> simp [tokenizeFrom, tokensOf]
  | case2 c cs ih =>
      rw [tokenizeFrom, lexemes_cons, tokensOf_cons]
      have hbehind := @ih (place.after (c :: cs.take (scan c cs).more))
      cases htoken : (scan c cs).token with
      | none =>
          simp only [Option.toList_none, List.nil_append]
          exact hbehind
      | some result =>
          cases result with
          | error cause => cases ts <;> simp
          | ok t =>
              simp only [Option.toList_some, List.singleton_append]
              constructor
              · rintro ⟨r, hr, rfl⟩
                cases htail : tokenizeFrom (place.after (c :: cs.take (scan c cs).more))
                    (cs.drop (scan c cs).more) with
                | error e => simp [htail, Except.map] at hr
                | ok r' =>
                    obtain rfl : ((place, t) :: r'.1, r'.2) = r := by
                      simpa [htail, Except.map] using hr
                    rw [hbehind.1 ⟨r', htail, rfl⟩]
                    rfl
              · intro hts
                cases ts with
                | nil => simp at hts
                | cons t' ts =>
                    rw [List.map_cons] at hts
                    obtain ⟨r', htail, rfl⟩ := hbehind.2 (List.cons.inj hts).2
                    obtain rfl : t = t' := Except.ok.inj (List.cons.inj hts).1
                    exact ⟨((place, t) :: r'.1, r'.2), by simp [htail, Except.map], rfl⟩

/-- A file reads as a definition if its tokens do; their places are for errors only. -/
theorem read_eq_ok_iff {source name : String} {g : GrammarDef} :
    read source name = .ok g ↔
      ∃ ts items, tokensOf (lexemes source.toList) = ts.map .ok ∧
        declarations? ts = some items ∧
        items.foldlM Item.addTo { name := name } = .ok g := by
  simp only [← @tokenizeFrom_eq_ok_iff Place.first]
  unfold read tokenize
  cases htokens : tokenizeFrom Place.first source.toList with
  | error e => simp [bind, Except.bind]
  | ok r =>
      cases hitems : declarations? (r.1.map (·.2)) with
      | none => simp [bind, Except.bind, hitems]
      | some items =>
          simp only [bind, Except.bind, hitems, Except.ok.injEq, exists_eq_left']
          refine Iff.trans (foldlM_eq_ok_congr (k := Item.addTo) fun g item g' => ?_) ?_
          · cases item with
            | rule name body => simp [Item.addTo]
            | directive name args remaining =>
                simp only [Item.addTo]
                cases applyDirective g name args <;> simp
          · constructor
            · intro hfold
              exact ⟨_, items, rfl, hitems, hfold⟩
            · rintro ⟨_, items', rfl, hitems', hfold⟩
              rw [hitems] at hitems'
              rwa [Option.some.inj hitems']

theorem read_congr {source source' name : String} {g : GrammarDef}
    (h : tokensOf (lexemes source.toList) = tokensOf (lexemes source'.toList)) :
    read source name = .ok g ↔ read source' name = .ok g := by
  rw [read_eq_ok_iff, read_eq_ok_iff, h]

theorem token_ne_error_of_read {source name : String} {g : GrammarDef}
    (h : read source name = .ok g) :
    ∀ l ∈ lexemes source.toList, ∀ e, l.token ≠ some (.error e) := by
  intro l hl e he
  obtain ⟨ts, -, hts, -, -⟩ := read_eq_ok_iff.1 h
  have hmem : .error e ∈ tokensOf (lexemes source.toList) := List.mem_filterMap.2 ⟨l, hl, he⟩
  rw [hts, List.mem_map] at hmem
  obtain ⟨t, -, ht⟩ := hmem
  cases ht

/-- White space and comments in front of, between or behind the tokens of a file can be any other: the
file with other layout reads as the same definition. -/
theorem read_relayout {source name : String} {g : GrammarDef} {front gap back : List Lexeme}
    {layout : List Char} (hread : read source name = .ok g)
    (hcut : lexemes source.toList = front ++ gap ++ back) (hgap : ∀ l ∈ gap, l.token = none)
    (hfront : ∀ l ∈ front.getLast?, l.token ≠ none) (hlayout : IsLayout layout) (hne : layout ≠ []) :
    read (String.ofList (textOf front ++ layout ++ textOf back)) name = .ok g := by
  have hback : lexemes (textOf back) = back := lexemes_textOf hcut
  rw [List.append_assoc] at hcut
  have hcut' : lexemes (textOf front ++ (layout ++ textOf back)) =
      front ++ lexemes (layout ++ textOf back) := by
    refine lexemes_append hcut (fun l hl => ?_) hfront (isIdentRest_head_layout hlayout hne)
    exact token_ne_error_of_read hread l (hcut ▸ List.mem_append_left _ hl)
  refine (read_congr ?_).1 hread
  rw [String.toList_ofList, List.append_assoc, hcut', hcut, tokensOf_append, tokensOf_append,
    tokensOf_append, tokensOf_layout hlayout, hback, tokensOf_eq_nil hgap, List.nil_append]

theorem read_relayout_comment :
    read "a ->b;" "g" = .ok { name := "g", rules := [("a", .symbol "b")] } ∧
      read "a//\n->b;" "g" = .ok { name := "g", rules := [("a", .symbol "b")] } := by
  have hcut : lexemes "a ->b;".toList =
      [⟨['a'], some (.ok (.ident "a"))⟩] ++ [⟨[' '], none⟩] ++
        [⟨['-', '>'], some (.ok .arrow)⟩, ⟨['b'], some (.ok (.ident "b"))⟩,
          ⟨[';'], some (.ok .semi)⟩] := by
    simp [lexemes_cons, scan, countWhile, isBlank, isIdentStart, isIdentRest, isDigit]
  have hbody : IsBody [.ident "b"] (.symbol "b") :=
    .mk _ _ _ (.last _ _ _ (.cons _ [] _ _ (.plain _ _ (.mk _ _ [] (.name "b" (by decide)))) .nil)
      (.one _)) (.one _)
  have hread : read "a ->b;" "g" = .ok { name := "g", rules := [("a", .symbol "b")] } :=
    read_eq_ok_iff.2 ⟨[.ident "a", .arrow, .ident "b", .semi], [.rule "a" (.symbol "b")],
      by rw [hcut]; rfl, declarations?_of_declares (.rule "a" _ [] _ [] hbody .nil), rfl⟩
  have hlayout : IsLayout ['/', '/', '\n'] := .comment [] [] (by simp) .nil
  have hrelaid := read_relayout hread hcut (by simp) (by simp) hlayout (by simp)
  exact ⟨hread, by simpa [textOf] using hrelaid⟩

end IncrementalLR.GrammarText
