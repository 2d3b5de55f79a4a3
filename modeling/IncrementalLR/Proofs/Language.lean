import IncrementalLR.Language
import IncrementalLR.Proofs.Lexer.Tokens
import IncrementalLR.Proofs.Table.Cells

/-!
# Compiled languages

A language that was loaded and compiled has the table of a well-formed grammar, and a lexer that
gives terminals of it.
-/

namespace IncrementalLR

theorem eq_ok_of_mapError {ε ε' α : Type} {f : ε → ε'} {x : Except ε α} {a : α}
    (h : x.mapError f = .ok a) : x = .ok a := by
  cases x with
  | error e => cases h
  | ok b =>
      cases h
      rfl

theorem mem_wordPattern {spec : LexicalSpec} {s : Symbol} {pattern : Nat}
    (h : Lexer.wordPattern spec = some (s, pattern)) : ∃ token ∈ spec.tokens, token.symbol = s := by
  obtain ⟨w, _, h⟩ := Option.bind_eq_some_iff.1 h
  obtain ⟨⟨token, i⟩, hlast, heq⟩ := Option.map_eq_some_iff.1 h
  simp only [Prod.mk.injEq] at heq
  obtain ⟨hmem, hsymbol⟩ := List.mem_filter.1 (List.mem_of_getLast? hlast)
  refine ⟨token, ?_, ?_⟩
  · have hget := (List.mem_zipIdx_iff_getElem?.1 hmem)
    exact Array.mem_toList_iff.1 (List.mem_of_getElem? hget)
  · rw [← heq.1]
    simpa using hsymbol

theorem keywords_foldl_insert {P : Symbol → Prop} {keywords : List (String × Symbol)}
    (hkeywords : ∀ entry ∈ keywords, P entry.2) {map : Std.HashMap (List UInt8) Symbol}
    (hmap : ∀ (key : List UInt8) (s : Symbol), map[key]? = some s → P s) {key : List UInt8} {s : Symbol}
    (h : (keywords.foldl (fun map (entry : String × Symbol) =>
      map.insert entry.1.toUTF8.data.toList entry.2) map)[key]? = some s) : P s := by
  induction keywords generalizing map with
  | nil => exact hmap key s h
  | cons entry keywords ih =>
      refine ih (fun other hother => hkeywords other (List.mem_cons_of_mem entry hother)) ?_ h
      intro key s hs
      rw [Std.HashMap.getElem?_insert] at hs
      split at hs
      · cases hs
        exact hkeywords entry List.mem_cons_self
      · exact hmap key s hs

/-- The lexer of a compiled table is well-formed. -/
theorem Lexer.wellFormed_ofTable {g : Grammar} (hg : g.WellFormed) {t : Table}
    (hfrom : t.CompiledFrom g) {lexer : Lexer} (h : Lexer.ofTable t = .ok lexer) :
    lexer.WellFormed ∧ lexer.terminalCount = t.terminalCount := by
  rw [Lexer.ofTable] at h
  simp only at h
  split at h
  · cases h
  · cases h
    have htoken : ∀ token ∈ t.lexical.tokens, token.symbol.IsToken t.terminalCount := by
      intro token htoken
      rw [hfrom.tokens] at htoken
      rw [hfrom.terminalCount]
      exact hg.tokens token htoken
    refine ⟨⟨?_, ?_, ?_, ?_⟩, rfl⟩
    · intro s literal hs
      rcases Array.mem_append.1 hs with hs | hs
      · obtain ⟨token, hmem, heq⟩ := Array.mem_map.1 hs
        rw [PatternKind.token.injEq] at heq
        rw [← heq.1]
        exact htoken token hmem
      · obtain ⟨skip, _, heq⟩ := Array.mem_map.1 hs
        cases heq
    · intro s pattern hs
      obtain ⟨token, hmem, rfl⟩ := mem_wordPattern hs
      exact htoken token hmem
    · intro key s hs
      rw [hfrom.keywords, ← Array.foldl_toList] at hs
      refine keywords_foldl_insert ?_ ?_ hs
      · intro entry hentry
        simp only at hentry ⊢
        rw [hfrom.terminalCount]
        exact hg.keywords entry hentry
      · intro key s hs
        simp at hs
    · intro s hs
      simp only at hs ⊢
      rw [hfrom.externals] at hs
      rw [hfrom.terminalCount]
      exact hg.externals s hs

/-- The language was made from a loaded grammar, perhaps with a scanner. -/
structure Language.CompiledFrom (l : Language) (g : Grammar) (policy : ConflictPolicy) : Prop where
  grammar : g.WellFormed
  table : Table.compile g policy = .ok l.table
  lexer : Lexer.ofTable l.table = .ok l.lexer

theorem Language.exists_compiledFrom_of_load {d : GrammarDef} {policy : ConflictPolicy} {l : Language}
    (h : Language.load d policy = .ok l) : ∃ g, Grammar.load d = .ok g ∧ l.CompiledFrom g policy := by
  obtain ⟨g, hg, h⟩ := exists_of_bind_eq_ok h
  obtain ⟨t, ht, h⟩ := exists_of_bind_eq_ok h
  obtain ⟨lexer, hlexer, h⟩ := exists_of_bind_eq_ok h
  cases h
  have hg := eq_ok_of_mapError hg
  exact ⟨g, hg, Grammar.load_wellFormed hg, eq_ok_of_mapError ht, eq_ok_of_mapError hlexer⟩

theorem Language.load_eq {d : GrammarDef} {policy : ConflictPolicy} {g : Grammar} {t : Table}
    {lexer : Lexer} (hg : Grammar.load d = .ok g) (ht : Table.compile g policy = .ok t)
    (hlexer : Lexer.ofTable t = .ok lexer) :
    Language.load d policy = .ok { table := t, lexer := lexer, warnings := g.warnings } := by
  rw [Language.load, hg]
  simp only [Except.mapError, bind, Except.bind]
  rw [Language.ofGrammar, ht]
  simp only [Except.mapError, bind, Except.bind]
  rw [Language.ofTable, hlexer]
  rfl

theorem Language.exists_load {d : GrammarDef} {policy : ConflictPolicy} {g : Grammar} {t : Table}
    (hg : Grammar.load d = .ok g) (ht : Table.compile g policy = .ok t)
    (hpatterns : (g.tokens.toList.map (·.pattern) ++ g.skips).mapM Pattern.read? ≠ none) :
    ∃ l, Language.load d policy = .ok l ∧ l.table = t := by
  obtain ⟨exprs, hexprs⟩ := Option.ne_none_iff_exists'.1 hpatterns
  obtain ⟨hfrom, _⟩ := Table.compile_eq_ok ht
  have hskips : t.lexical.skips.toList = g.skips := by rw [hfrom.skips]
  rw [← hskips, ← hfrom.tokens] at hexprs
  obtain ⟨lexer, hlexer⟩ : ∃ lexer, Lexer.ofTable t = .ok lexer := by
    rw [Lexer.ofTable]
    simp only [hexprs]
    exact ⟨_, rfl⟩
  exact ⟨_, load_eq hg ht hlexer, rfl⟩

end IncrementalLR
