import IncrementalLR.Grammar.Load
import IncrementalLR.Proofs.Fold

/-!
# The terminals of a loaded grammar

Every symbol that the search for terminals hands out is the number of a terminal other than the end
of input, and every literal and pattern inside a rule is found again by its text.
-/

namespace IncrementalLR

theorem addSymbol_eq_ok {symbols symbols' : Array SymbolInfo} {info : SymbolInfo} {s : Symbol}
    (h : addSymbol symbols info = .ok (s, symbols')) :
    symbols.size < 65535 ∧ s.index = symbols.size ∧ symbols' = symbols.push info := by
  unfold addSymbol at h
  split at h
  · cases h
  · rename_i hsize
    cases h
    exact ⟨by omega, Symbol.index_ofIndex (by omega), rfl⟩

/-- One of the symbols of an array, and not the end of input. -/
def Symbol.IsToken (size : Nat) (s : Symbol) : Prop := 0 < s.index ∧ s.index < size

theorem Symbol.IsToken.mono {size size' : Nat} {s : Symbol} (h : s.IsToken size)
    (hle : size ≤ size') : s.IsToken size' :=
  ⟨h.1, Nat.lt_of_lt_of_le h.2 hle⟩

/-- Every symbol that a map leads to has the property. -/
def MapsTo (m : Std.HashMap String Symbol) (P : Symbol → Prop) : Prop :=
  ∀ (key : String) (s : Symbol), m[key]? = some s → P s

theorem MapsTo.mono {m : Std.HashMap String Symbol} {P Q : Symbol → Prop} (h : MapsTo m P)
    (hPQ : ∀ s, P s → Q s) : MapsTo m Q :=
  fun key s hs => hPQ s (h key s hs)

theorem MapsTo.insert {m : Std.HashMap String Symbol} {P : Symbol → Prop} (h : MapsTo m P)
    {key : String} {s : Symbol} (hs : P s) : MapsTo (m.insert key s) P := by
  intro other t ht
  rw [Std.HashMap.getElem?_insert] at ht
  split at ht
  · cases ht
    exact hs
  · exact h other t ht

theorem mapsTo_empty (P : Symbol → Prop) : MapsTo (∅ : Std.HashMap String Symbol) P := by
  intro key s h
  simp at h

/-- The value of a key that is there. -/
theorem MapsTo.getD {m : Std.HashMap String Symbol} {P : Symbol → Prop} (h : MapsTo m P)
    {key : String} (hkey : key ∈ m) (default : Symbol) : P ((m[key]?).getD default) := by
  obtain ⟨s, hs⟩ := Option.isSome_iff_exists.1 (Std.HashMap.isSome_getElem?_iff_mem.2 hkey)
  rw [hs]
  exact h key s hs

namespace Terminals

/-- Every symbol handed out so far is the number of a token. -/
structure WellFormed (t : Terminals) : Prop where
  pos : 0 < t.symbols.size
  size : t.symbols.size ≤ 65535
  names : MapsTo t.names (Symbol.IsToken t.symbols.size)
  literals : MapsTo t.literals (Symbol.IsToken t.symbols.size)
  patterns : MapsTo t.patterns (Symbol.IsToken t.symbols.size)
  tokens : ∀ token ∈ t.tokens, token.symbol.IsToken t.symbols.size
  literalTexts : ∀ entry ∈ t.literalTexts, entry.1.IsToken t.symbols.size

theorem wellFormed_initial : initial.WellFormed :=
  { pos := by decide
    size := by decide
    names := mapsTo_empty _
    literals := mapsTo_empty _
    patterns := mapsTo_empty _
    tokens := fun _ h => absurd h (Array.not_mem_empty _)
    literalTexts := fun _ h => absurd h List.not_mem_nil }

/-- What is found by its name or text stays found. -/
structure Extends (t t' : Terminals) : Prop where
  size : t.symbols.size ≤ t'.symbols.size
  names : ∀ key ∈ t.names, key ∈ t'.names
  literals : ∀ key ∈ t.literals, key ∈ t'.literals
  patterns : ∀ key ∈ t.patterns, key ∈ t'.patterns

theorem Extends.refl (t : Terminals) : t.Extends t :=
  ⟨Nat.le_refl _, fun _ h => h, fun _ h => h, fun _ h => h⟩

theorem Extends.trans {t t' t'' : Terminals} (h : t.Extends t') (h' : t'.Extends t'') :
    t.Extends t'' :=
  ⟨Nat.le_trans h.size h'.size, fun key hkey => h'.names key (h.names key hkey),
    fun key hkey => h'.literals key (h.literals key hkey),
    fun key hkey => h'.patterns key (h.patterns key hkey)⟩

/-- A symbol more leaves what is known as it is. -/
theorem WellFormed.push {t : Terminals} (h : t.WellFormed) (info : SymbolInfo)
    (hsize : t.symbols.size < 65535) : { t with symbols := t.symbols.push info }.WellFormed := by
  have hle : t.symbols.size ≤ (t.symbols.push info).size := by
    rw [Array.size_push]
    omega
  have hmono : ∀ s : Symbol, s.IsToken t.symbols.size → s.IsToken (t.symbols.push info).size :=
    fun s hs => hs.mono hle
  exact
    { pos := Nat.lt_of_lt_of_le h.pos hle
      size := by
        simp only [Array.size_push]
        omega
      names := h.names.mono hmono
      literals := h.literals.mono hmono
      patterns := h.patterns.mono hmono
      tokens := fun token htoken => hmono _ (h.tokens token htoken)
      literalTexts := fun entry hentry => hmono _ (h.literalTexts entry hentry) }

theorem isToken_push {symbols : Array SymbolInfo} {s : Symbol} (info : SymbolInfo)
    (hpos : 0 < symbols.size) (hs : s.index = symbols.size) :
    s.IsToken (symbols.push info).size := by
  rw [Array.size_push]
  exact ⟨by omega, by omega⟩

theorem tokens_push {tokens : Array TokenDef} {size : Nat} (new : TokenDef)
    (h : ∀ token ∈ tokens, token.symbol.IsToken size) (hnew : new.symbol.IsToken size) :
    ∀ token ∈ tokens.push new, token.symbol.IsToken size := by
  intro token htoken
  rcases Array.mem_push.1 htoken with htoken | heq
  · exact h token htoken
  · rw [heq]
    exact hnew

theorem literalTexts_append {texts : List (Symbol × String)} {size : Nat} {s : Symbol}
    (text : String) (h : ∀ entry ∈ texts, entry.1.IsToken size) (hs : s.IsToken size) :
    ∀ entry ∈ texts ++ [(s, text)], entry.1.IsToken size := by
  intro entry hentry
  rcases List.mem_append.1 hentry with hentry | hentry
  · exact h entry hentry
  · rw [List.mem_singleton.1 hentry]
    exact hs

/-! ### Tokens that are rules -/

theorem lexicalSource?_eq_none {owner : String} {body : Rule}
    (h : lexicalSource? owner body = .ok none) : body.isLexical = false := by
  cases body with
  | literal text => cases h
  | pattern source => cases h
  | token body =>
      simp only [lexicalSource?] at h
      obtain ⟨source, _, h⟩ := exists_of_bind_eq_ok h
      cases h
  | _ => rfl

theorem addLexicalRule_eq_ok {t t' : Terminals} {name : String} {body : Rule} (h : t.WellFormed)
    (hadd : t.addLexicalRule name body = .ok t') :
    t'.WellFormed ∧ t.Extends t' ∧ (body.isLexical = true → name ∈ t'.names) := by
  rw [addLexicalRule] at hadd
  obtain ⟨found, hfound, hadd⟩ := exists_of_bind_eq_ok hadd
  cases found with
  | none =>
      cases hadd
      refine ⟨h, .refl t, fun hlexical => ?_⟩
      rw [lexicalSource?_eq_none hfound] at hlexical
      cases hlexical
  | some found =>
      obtain ⟨⟨s, symbols⟩, hsymbol, hadd⟩ := exists_of_bind_eq_ok hadd
      obtain ⟨hsize, hindex, rfl⟩ := addSymbol_eq_ok hsymbol
      cases hadd
      have hpush := h.push ⟨name, .terminal, isVisibleName name, true, false⟩ hsize
      have hs := isToken_push ⟨name, .terminal, isVisibleName name, true, false⟩ h.pos hindex
      refine ⟨⟨hpush.pos, hpush.size, hpush.names.insert hs, hpush.literals, hpush.patterns,
        tokens_push ⟨s, found.1, found.2.isSome⟩ hpush.tokens hs, ?_⟩,
        ⟨?_, ?_, fun _ hkey => hkey, fun _ hkey => hkey⟩, fun _ => ?_⟩
      · cases found.2 with
        | none => exact hpush.literalTexts
        | some text => exact literalTexts_append text hpush.literalTexts hs
      · rw [Array.size_push]
        omega
      · intro key hkey
        exact Std.HashMap.mem_insert.2 (.inr hkey)
      · exact Std.HashMap.mem_insert_self

/-! ### Tokens inside rules -/

theorem addLiteral_eq_ok {t t' : Terminals} {text : String} (h : t.WellFormed)
    (hadd : t.addLiteral text = .ok t') : t'.WellFormed ∧ t.Extends t' ∧ text ∈ t'.literals := by
  rw [addLiteral] at hadd
  split at hadd
  · rename_i hfound
    cases hadd
    exact ⟨h, .refl t, hfound⟩
  · obtain ⟨⟨s, symbols⟩, hsymbol, hadd⟩ := exists_of_bind_eq_ok hadd
    obtain ⟨hsize, hindex, rfl⟩ := addSymbol_eq_ok hsymbol
    cases hadd
    have hpush := h.push ⟨text, .terminal, true, false, false⟩ hsize
    have hs := isToken_push ⟨text, .terminal, true, false, false⟩ h.pos hindex
    refine ⟨⟨hpush.pos, hpush.size, hpush.names, hpush.literals.insert hs, hpush.patterns,
      tokens_push ⟨s, Pattern.literalSource text, true⟩ hpush.tokens hs,
      literalTexts_append text hpush.literalTexts hs⟩,
      ⟨?_, fun _ hkey => hkey, ?_, fun _ hkey => hkey⟩, Std.HashMap.mem_insert_self⟩
    · rw [Array.size_push]
      omega
    · intro key hkey
      exact Std.HashMap.mem_insert.2 (.inr hkey)

theorem addPattern_eq_ok {t t' : Terminals} {owner source : String} (h : t.WellFormed)
    (hadd : t.addPattern owner source = .ok t') :
    t'.WellFormed ∧ t.Extends t' ∧ source ∈ t'.patterns := by
  rw [addPattern] at hadd
  split at hadd
  · rename_i hfound
    cases hadd
    exact ⟨h, .refl t, hfound⟩
  · obtain ⟨⟨s, symbols⟩, hsymbol, hadd⟩ := exists_of_bind_eq_ok hadd
    obtain ⟨hsize, hindex, rfl⟩ := addSymbol_eq_ok hsymbol
    cases hadd
    generalize (⟨owner ++ "_token" ++ toString (t.patternCount + 1), .terminal, false, false, false⟩ :
      SymbolInfo) = info
    have hpush := h.push info hsize
    have hs := isToken_push info h.pos hindex
    refine ⟨⟨hpush.pos, hpush.size, hpush.names, hpush.literals, hpush.patterns.insert hs,
      tokens_push ⟨s, source, false⟩ hpush.tokens hs, hpush.literalTexts⟩,
      ⟨?_, fun _ hkey => hkey, fun _ hkey => hkey, ?_⟩, Std.HashMap.mem_insert_self⟩
    · rw [Array.size_push]
      omega
    · intro key hkey
      exact Std.HashMap.mem_insert.2 (.inr hkey)

end Terminals

mutual

/-- The literals and patterns inside the rule are keys of the maps. -/
def Rule.TokensIn (owner : String) (literals patterns : Std.HashMap String Symbol) : Rule → Prop
  | .literal text => text ∈ literals
  | .pattern source => source ∈ patterns
  | .token (.literal text) => text ∈ literals
  | .token body => ∀ source, tokenSource owner body = .ok source → source ∈ patterns
  | .seq items => TokensInAll owner literals patterns items
  | .choice items => TokensInAll owner literals patterns items
  | .zeroOrMore body => TokensIn owner literals patterns body
  | .oneOrMore body => TokensIn owner literals patterns body
  | .optional body => TokensIn owner literals patterns body
  | .ranked _ _ body => TokensIn owner literals patterns body
  | .weighted _ body => TokensIn owner literals patterns body
  | .field _ body => TokensIn owner literals patterns body
  | .blank => True
  | .symbol _ => True

def Rule.TokensInAll (owner : String) (literals patterns : Std.HashMap String Symbol) :
    List Rule → Prop
  | [] => True
  | item :: items => TokensIn owner literals patterns item ∧ TokensInAll owner literals patterns items

end

namespace Terminals

/-- The literals and patterns inside the rule have been found. -/
def Covers (t : Terminals) (owner : String) (rule : Rule) : Prop :=
  rule.TokensIn owner t.literals t.patterns

mutual

theorem Covers.mono {t t' : Terminals} {owner : String} (hext : t.Extends t') :
    (rule : Rule) → t.Covers owner rule → t'.Covers owner rule
  | .literal text, h => hext.literals text h
  | .pattern source, h => hext.patterns source h
  | .token body, h => by
      cases body with
      | literal text => exact hext.literals text h
      | _ => exact fun source hsource => hext.patterns source (h source hsource)
  | .seq items, h => Covers.monoAll hext items h
  | .choice items, h => Covers.monoAll hext items h
  | .zeroOrMore body, h => Covers.mono hext body h
  | .oneOrMore body, h => Covers.mono hext body h
  | .optional body, h => Covers.mono hext body h
  | .ranked _ _ body, h => Covers.mono hext body h
  | .weighted _ body, h => Covers.mono hext body h
  | .field _ body, h => Covers.mono hext body h
  | .blank, _ => trivial
  | .symbol _, _ => trivial

theorem Covers.monoAll {t t' : Terminals} {owner : String} (hext : t.Extends t') :
    (items : List Rule) → Rule.TokensInAll owner t.literals t.patterns items →
      Rule.TokensInAll owner t'.literals t'.patterns items
  | [], _ => trivial
  | item :: items, h => ⟨Covers.mono hext item h.1, Covers.monoAll hext items h.2⟩

end

mutual

theorem addInline_eq_ok {owner : String} {t t' : Terminals} (h : t.WellFormed) :
    (rule : Rule) → addInline owner t rule = .ok t' →
      t'.WellFormed ∧ t.Extends t' ∧ t'.Covers owner rule
  | .literal text, hadd => addLiteral_eq_ok h hadd
  | .pattern source, hadd => addPattern_eq_ok h hadd
  | .token body, hadd => by
      have hpattern : (do t.addPattern owner (← tokenSource owner body)) = .ok t' →
          t'.WellFormed ∧ t.Extends t' ∧
            ∀ source, tokenSource owner body = .ok source → source ∈ t'.patterns := by
        intro hadd
        obtain ⟨source, hsource, hadd⟩ := exists_of_bind_eq_ok hadd
        obtain ⟨hwf, hext, hmem⟩ := addPattern_eq_ok h hadd
        refine ⟨hwf, hext, fun other hother => ?_⟩
        rw [hsource] at hother
        cases hother
        exact hmem
      cases body with
      | literal text => exact addLiteral_eq_ok h hadd
      | _ => exact hpattern hadd
  | .seq items, hadd => addInlineAll_eq_ok h items hadd
  | .choice items, hadd => addInlineAll_eq_ok h items hadd
  | .zeroOrMore body, hadd => addInline_eq_ok h body hadd
  | .oneOrMore body, hadd => addInline_eq_ok h body hadd
  | .optional body, hadd => addInline_eq_ok h body hadd
  | .ranked _ _ body, hadd => addInline_eq_ok h body hadd
  | .weighted _ body, hadd => addInline_eq_ok h body hadd
  | .field _ body, hadd => addInline_eq_ok h body hadd
  | .blank, hadd => by
      cases hadd
      exact ⟨h, .refl t, trivial⟩
  | .symbol _, hadd => by
      cases hadd
      exact ⟨h, .refl t, trivial⟩

theorem addInlineAll_eq_ok {owner : String} {t t' : Terminals} (h : t.WellFormed) :
    (items : List Rule) → addInlineAll owner t items = .ok t' →
      t'.WellFormed ∧ t.Extends t' ∧ Rule.TokensInAll owner t'.literals t'.patterns items
  | [], hadd => by
      cases hadd
      exact ⟨h, .refl t, trivial⟩
  | item :: items, hadd => by
      rw [addInlineAll] at hadd
      obtain ⟨next, hnext, hadd⟩ := exists_of_bind_eq_ok hadd
      obtain ⟨hwf, hext, hitem⟩ := addInline_eq_ok h item hnext
      obtain ⟨hwf', hext', hitems⟩ := addInlineAll_eq_ok hwf items hadd
      exact ⟨hwf', hext.trans hext', hitem.mono hext', hitems⟩

end

mutual

/-- What every literal and every pattern inside a rule keeps, the whole rule keeps. -/
theorem addInline_induction {P : Terminals → Prop} {owner : String}
    (hliteral : ∀ t text t', P t → t.addLiteral text = .ok t' → P t')
    (hpattern : ∀ t source t', P t → t.addPattern owner source = .ok t' → P t') {t t' : Terminals}
    (h : P t) : (rule : Rule) → addInline owner t rule = .ok t' → P t'
  | .literal text, hadd => hliteral t text t' h hadd
  | .pattern source, hadd => hpattern t source t' h hadd
  | .token body, hadd => by
      have hbody : (do t.addPattern owner (← tokenSource owner body)) = .ok t' → P t' := by
        intro hadd
        obtain ⟨source, _, hadd⟩ := exists_of_bind_eq_ok hadd
        exact hpattern t source t' h hadd
      cases body with
      | literal text => exact hliteral t text t' h hadd
      | _ => exact hbody hadd
  | .seq items, hadd => addInlineAll_induction hliteral hpattern h items hadd
  | .choice items, hadd => addInlineAll_induction hliteral hpattern h items hadd
  | .zeroOrMore body, hadd => addInline_induction hliteral hpattern h body hadd
  | .oneOrMore body, hadd => addInline_induction hliteral hpattern h body hadd
  | .optional body, hadd => addInline_induction hliteral hpattern h body hadd
  | .ranked _ _ body, hadd => addInline_induction hliteral hpattern h body hadd
  | .weighted _ body, hadd => addInline_induction hliteral hpattern h body hadd
  | .field _ body, hadd => addInline_induction hliteral hpattern h body hadd
  | .blank, hadd => by
      cases hadd
      exact h
  | .symbol _, hadd => by
      cases hadd
      exact h

theorem addInlineAll_induction {P : Terminals → Prop} {owner : String}
    (hliteral : ∀ t text t', P t → t.addLiteral text = .ok t' → P t')
    (hpattern : ∀ t source t', P t → t.addPattern owner source = .ok t' → P t') {t t' : Terminals}
    (h : P t) : (items : List Rule) → addInlineAll owner t items = .ok t' → P t'
  | [], hadd => by
      cases hadd
      exact h
  | item :: items, hadd => by
      rw [addInlineAll] at hadd
      obtain ⟨next, hnext, hadd⟩ := exists_of_bind_eq_ok hadd
      have hitem := addInline_induction hliteral hpattern h item hnext
      exact addInlineAll_induction hliteral hpattern hitem items hadd

end

theorem addSyntacticRule_eq_ok {t t' : Terminals} {name : String} {body : Rule} (h : t.WellFormed)
    (hadd : t.addSyntacticRule name body = .ok t') :
    t'.WellFormed ∧ t.Extends t' ∧ (body.isLexical = false → t'.Covers name body) := by
  rw [addSyntacticRule] at hadd
  split at hadd
  · rename_i hlexical
    cases hadd
    refine ⟨h, .refl t, fun hnot => ?_⟩
    rw [hlexical] at hnot
    cases hnot
  · have h0 : { t with patternCount := 0 }.WellFormed :=
      ⟨h.pos, h.size, h.names, h.literals, h.patterns, h.tokens, h.literalTexts⟩
    obtain ⟨hwf, hext, hcovers⟩ := addInline_eq_ok h0 body hadd
    exact ⟨hwf, ⟨hext.size, hext.names, hext.literals, hext.patterns⟩, fun _ => hcovers⟩

theorem addExternal_eq_ok {t t' : Terminals} {name : String} {s : Symbol} (h : t.WellFormed)
    (hadd : t.addExternal name = .ok (s, t')) :
    t'.WellFormed ∧ t.Extends t' ∧ s.IsToken t'.symbols.size := by
  rw [addExternal] at hadd
  obtain ⟨⟨s', symbols⟩, hsymbol, hadd⟩ := exists_of_bind_eq_ok hadd
  obtain ⟨hsize, hindex, rfl⟩ := addSymbol_eq_ok hsymbol
  cases hadd
  have hpush := h.push ⟨name, .external, isVisibleName name, true, false⟩ hsize
  have hs := isToken_push ⟨name, .external, isVisibleName name, true, false⟩ h.pos hindex
  refine ⟨⟨hpush.pos, hpush.size, hpush.names.insert hs, hpush.literals, hpush.patterns,
    hpush.tokens, hpush.literalTexts⟩, ⟨?_, ?_, fun _ hkey => hkey, fun _ hkey => hkey⟩, hs⟩
  · rw [Array.size_push]
    omega
  · intro key hkey
    exact Std.HashMap.mem_insert.2 (.inr hkey)

end Terminals

/-- What every single terminal keeps, with the externals found so far, holds of all terminals. -/
theorem GrammarDef.terminals_induction {d : GrammarDef} {t : Terminals} {externals : List Symbol}
    (P : Terminals → List Symbol → Prop) (h : d.terminals = .ok (t, externals))
    (hinit : P Terminals.initial [])
    (hlexical : ∀ t name body t', P t [] → t.addLexicalRule name body = .ok t' → P t' [])
    (hrule : ∀ t, P t [] → P { t with patternCount := 0 } [])
    (hliteral : ∀ t text t', P t [] → t.addLiteral text = .ok t' → P t' [])
    (hpattern : ∀ t owner source t', P t [] → t.addPattern owner source = .ok t' → P t' [])
    (hexternal : ∀ t externals name s t', P t externals → t.addExternal name = .ok (s, t') →
      P t' (externals ++ [s])) : P t externals := by
  rw [GrammarDef.terminals] at h
  obtain ⟨lexical, hlex, h⟩ := exists_of_bind_eq_ok h
  obtain ⟨syntactic, hsyntactic, h⟩ := exists_of_bind_eq_ok h
  have h₁ : P lexical [] := foldlM_induction (fun _ (t : Terminals) => P t []) hlex hinit
    fun _ rule _ t t' _ ht hadd => hlexical t rule.1 rule.2 t' ht hadd
  have h₂ : P syntactic [] := by
    refine foldlM_induction (fun _ (t : Terminals) => P t []) hsyntactic h₁ ?_
    rintro _ ⟨name, body⟩ _ t t' _ ht hadd
    simp only [Terminals.addSyntacticRule] at hadd
    split at hadd
    · cases hadd
      exact ht
    · exact Terminals.addInline_induction hliteral (fun t => hpattern t name) (hrule t ht) body hadd
  refine foldlM_induction (fun _ (state : Terminals × List Symbol) => P state.1 state.2) h h₂ ?_
  intro _ name _ state state' _ ht hadd
  obtain ⟨⟨s, t'⟩, hs, hadd⟩ := exists_of_bind_eq_ok hadd
  cases hadd
  exact hexternal state.1 state.2 name s t' ht hs

/-- What loading finds of the terminals: all of them numbered, the lexical rules by their names, and
the tokens inside the other rules by their texts. -/
theorem GrammarDef.terminals_eq_ok {d : GrammarDef} {t : Terminals} {externals : List Symbol}
    (h : d.terminals = .ok (t, externals)) :
    t.WellFormed ∧
      (∀ rule ∈ d.rules, rule.2.isLexical = true → rule.1 ∈ t.names) ∧
      (∀ rule ∈ d.rules, rule.2.isLexical = false → t.Covers rule.1 rule.2) ∧
      (∀ s ∈ externals, s.IsToken t.symbols.size) := by
  rw [GrammarDef.terminals] at h
  obtain ⟨lexical, hlexical, h⟩ := exists_of_bind_eq_ok h
  obtain ⟨syntactic, hsyntactic, h⟩ := exists_of_bind_eq_ok h
  have h₁ : lexical.WellFormed ∧
      ∀ rule ∈ d.rules, rule.2.isLexical = true → rule.1 ∈ lexical.names := by
    refine foldlM_induction (fun done (t : Terminals) => t.WellFormed ∧
      ∀ rule ∈ done, rule.2.isLexical = true → rule.1 ∈ t.names) hlexical
      ⟨Terminals.wellFormed_initial, by simp⟩ ?_
    intro done rule _ t t' _ ⟨hwf, hnames⟩ hadd
    obtain ⟨hwf', hext, hname⟩ := Terminals.addLexicalRule_eq_ok hwf hadd
    refine ⟨hwf', fun other hother hlex => ?_⟩
    rcases List.mem_append.1 hother with hother | hother
    · exact hext.names _ (hnames other hother hlex)
    · rw [List.mem_singleton.1 hother] at hlex ⊢
      exact hname hlex
  have h₂ : syntactic.WellFormed ∧ lexical.Extends syntactic ∧
      ∀ rule ∈ d.rules, rule.2.isLexical = false → syntactic.Covers rule.1 rule.2 := by
    refine foldlM_induction (fun done (t : Terminals) => t.WellFormed ∧ lexical.Extends t ∧
      ∀ rule ∈ done, rule.2.isLexical = false → t.Covers rule.1 rule.2) hsyntactic
      ⟨h₁.1, .refl lexical, by simp⟩ ?_
    intro done rule _ t t' _ ⟨hwf, hfrom, hcovers⟩ hadd
    obtain ⟨hwf', hext, hcover⟩ := Terminals.addSyntacticRule_eq_ok hwf hadd
    refine ⟨hwf', hfrom.trans hext, fun other hother hlex => ?_⟩
    rcases List.mem_append.1 hother with hother | hother
    · exact (hcovers other hother hlex).mono hext
    · rw [List.mem_singleton.1 hother] at hlex ⊢
      exact hcover hlex
  obtain ⟨hwf, hext, hexternals⟩ := foldlM_induction
    (fun _ (state : Terminals × List Symbol) => state.1.WellFormed ∧ syntactic.Extends state.1 ∧
      ∀ s ∈ state.2, s.IsToken state.1.symbols.size) h ⟨h₂.1, .refl syntactic, by simp⟩ (by
    intro _ name _ ⟨t, found⟩ state' _ ⟨hwf, hfrom, hfound⟩ hadd
    obtain ⟨⟨s, t'⟩, hs, hadd⟩ := exists_of_bind_eq_ok hadd
    cases hadd
    obtain ⟨hwf', hext, hnew⟩ := Terminals.addExternal_eq_ok hwf hs
    refine ⟨hwf', hfrom.trans hext, fun other hother => ?_⟩
    rcases List.mem_append.1 hother with hother | hother
    · exact (hfound other hother).mono hext.size
    · rw [List.mem_singleton.1 hother]
      exact hnew)
  refine ⟨hwf, ?_, ?_, hexternals⟩
  · intro rule hrule hlex
    exact hext.names _ (h₂.2.1.names _ (h₁.2 rule hrule hlex))
  · intro rule hrule hlex
    exact (h₂.2.2 rule hrule hlex).mono hext

end IncrementalLR
