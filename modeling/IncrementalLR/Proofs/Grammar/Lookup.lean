import Mathlib.Data.List.Find
import IncrementalLR.Proofs.Grammar.WellFormed

/-!
# The symbols of names, literals and patterns

A loaded grammar says of every symbol what it stands for, so the symbol of a name, of a literal or
of a pattern can be found in the grammar itself. The maps with which loading resolves names and
texts lead to the same symbols.
-/

namespace IncrementalLR

/-- The symbol comes from a rule or is an external token, and has the name. -/
def SymbolInfo.isNamed (name : String) (info : SymbolInfo) : Bool := info.named && info.name == name

/-- The symbol is a literal inside a rule, and the name is its text. -/
def SymbolInfo.isLiteral (text : String) (info : SymbolInfo) : Bool :=
  info.visible && !info.named && info.name == text

/-- The last symbol of which the property holds. -/
def findSymbol (P : SymbolInfo → Bool) (symbols : Array SymbolInfo) : Option Symbol :=
  ((List.range symbols.size).reverse.find? fun i => P (symbols.getD i SymbolInfo.error)).map
    Symbol.ofIndex

/-- The token of a pattern inside a rule. A rule that is a pattern as a whole is another token, with
the name of the rule. -/
def TokenDef.isPattern (source : String) (symbols : Array SymbolInfo) (token : TokenDef) : Bool :=
  token.pattern == source && !token.literal &&
    !(symbols.getD token.symbol.index SymbolInfo.error).named

def findPattern (source : String) (tokens : Array TokenDef) (symbols : Array SymbolInfo) :
    Option Symbol :=
  (tokens.toList.find? (TokenDef.isPattern source symbols)).map (·.symbol)

namespace Grammar

/-- What has no symbol stands for text that fits nowhere; no production has this symbol. -/
def nameSymbol (g : Grammar) (name : String) : Symbol :=
  (findSymbol (SymbolInfo.isNamed name) g.symbols).getD Symbol.error

def literalSymbol (g : Grammar) (text : String) : Symbol :=
  (findSymbol (SymbolInfo.isLiteral text) g.symbols).getD Symbol.error

def patternSymbol (g : Grammar) (source : String) : Symbol :=
  (findPattern source g.tokens g.symbols).getD Symbol.error

end Grammar

/-! ### Searching a table of symbols -/

theorem getD_push_of_lt {symbols : Array SymbolInfo} {i : Nat} (h : i < symbols.size)
    (info d : SymbolInfo) : (symbols.push info).getD i d = symbols.getD i d := by
  rw [Array.getD_eq_getD_getElem?, Array.getD_eq_getD_getElem?, Array.getElem?_push_lt h,
    Array.getElem?_eq_getElem h]

theorem getD_push_size (symbols : Array SymbolInfo) (info d : SymbolInfo) :
    (symbols.push info).getD symbols.size d = info := by
  rw [Array.getD_eq_getD_getElem?, Array.getElem?_push_size, Option.getD_some]

theorem findSymbol_push (P : SymbolInfo → Bool) (symbols : Array SymbolInfo) (info : SymbolInfo) :
    findSymbol P (symbols.push info)
      = if P info then some (Symbol.ofIndex symbols.size) else findSymbol P symbols := by
  have hold : (List.range symbols.size).reverse.find?
        (fun i => P ((symbols.push info).getD i SymbolInfo.error))
      = (List.range symbols.size).reverse.find? fun i => P (symbols.getD i SymbolInfo.error) := by
    refine List.find?_congr fun i hi => ?_
    rw [getD_push_of_lt (List.mem_range.1 (List.mem_reverse.1 hi))]
  rw [findSymbol, Array.size_push, List.range_succ, List.reverse_append, List.reverse_singleton,
    List.singleton_append, List.find?_cons, getD_push_size, hold]
  cases P info <;> rfl

theorem findSymbol_push_of_false {P : SymbolInfo → Bool} {info : SymbolInfo} (h : P info = false)
    (symbols : Array SymbolInfo) : findSymbol P (symbols.push info) = findSymbol P symbols := by
  rw [findSymbol_push, h]
  rfl

/-- What tables agree on is found at the same place in both. -/
theorem findSymbol_congr {P : SymbolInfo → Bool} {symbols symbols' : Array SymbolInfo}
    (hsize : symbols'.size = symbols.size)
    (h : ∀ i, P (symbols'.getD i SymbolInfo.error) = P (symbols.getD i SymbolInfo.error)) :
    findSymbol P symbols' = findSymbol P symbols := by
  simp only [findSymbol, hsize, h]

theorem findPattern_congr {source : String} {tokens : Array TokenDef}
    {symbols symbols' : Array SymbolInfo}
    (h : ∀ token ∈ tokens, (symbols'.getD token.symbol.index SymbolInfo.error).named
      = (symbols.getD token.symbol.index SymbolInfo.error).named) :
    findPattern source tokens symbols' = findPattern source tokens symbols := by
  refine congrArg (Option.map _) (List.find?_congr fun token htoken => ?_)
  rw [TokenDef.isPattern, h token (Array.mem_toList_iff.1 htoken), TokenDef.isPattern]

theorem findPattern_push_of_false {source : String} {token : TokenDef} {symbols : Array SymbolInfo}
    (h : token.isPattern source symbols = false) (tokens : Array TokenDef) :
    findPattern source (tokens.push token) symbols = findPattern source tokens symbols := by
  rw [findPattern, Array.toList_push, List.find?_append, List.find?_cons, h, List.find?_nil,
    Option.or_none, findPattern]

theorem findPattern_push_of_true {source : String} {token : TokenDef} {symbols : Array SymbolInfo}
    (h : token.isPattern source symbols = true) {tokens : Array TokenDef}
    (hnone : findPattern source tokens symbols = none) :
    findPattern source (tokens.push token) symbols = some token.symbol := by
  rw [findPattern, Option.map_eq_none_iff] at hnone
  rw [findPattern, Array.toList_push, List.find?_append, hnone, Option.none_or, List.find?_cons, h,
    Option.map_some]

/-! ### The maps of the terminals -/

namespace Terminals

/-- The maps say what a search of the symbols and tokens says. -/
structure Indexed (t : Terminals) : Prop where
  names : ∀ name, t.names[name]? = findSymbol (SymbolInfo.isNamed name) t.symbols
  literals : ∀ text, t.literals[text]? = findSymbol (SymbolInfo.isLiteral text) t.symbols
  patterns : ∀ source, t.patterns[source]? = findPattern source t.tokens t.symbols
  plain : ∀ i < t.symbols.size, (t.symbols.getD i SymbolInfo.error).kind.isTerminal = true ∧
    (t.symbols.getD i SymbolInfo.error).extra = false

theorem indexed_initial : initial.Indexed :=
  { names := fun name => by simp [initial, findSymbol, SymbolInfo.isNamed]
    literals := fun text => by simp [initial, findSymbol, SymbolInfo.isLiteral]
    patterns := fun source => by simp [initial, findPattern]
    plain := fun i hi => by
      obtain rfl : i = 0 := Nat.lt_one_iff.1 hi
      exact ⟨rfl, rfl⟩ }

section Push

variable {t : Terminals} {info : SymbolInfo}

theorem plain_push (h : t.Indexed) (hinfo : info.kind.isTerminal = true ∧ info.extra = false) :
    ∀ i < (t.symbols.push info).size,
      ((t.symbols.push info).getD i SymbolInfo.error).kind.isTerminal = true ∧
        ((t.symbols.push info).getD i SymbolInfo.error).extra = false := by
  intro i hi
  rw [Array.size_push] at hi
  rcases Nat.lt_succ_iff_lt_or_eq.1 hi with hi | rfl
  · rw [getD_push_of_lt hi]
    exact h.plain i hi
  · rw [getD_push_size]
    exact hinfo

/-- The tokens found so far keep their patterns. -/
theorem findPattern_push_symbol (h : t.WellFormed) (source : String) :
    findPattern source t.tokens (t.symbols.push info) = findPattern source t.tokens t.symbols :=
  findPattern_congr fun token htoken => by rw [getD_push_of_lt (h.tokens token htoken).2]

/-- A named symbol more, with its name. -/
theorem names_insert (h : t.Indexed) {s : Symbol} (hs : s.index = t.symbols.size) {key : String}
    (hkey : info.name = key) (hnamed : info.named = true) (name : String) :
    (t.names.insert key s)[name]? = findSymbol (SymbolInfo.isNamed name) (t.symbols.push info) := by
  rw [← hkey, Std.HashMap.getElem?_insert, findSymbol_push, ← hs, Symbol.ofIndex_index, h.names name,
    SymbolInfo.isNamed, hnamed, Bool.true_and]

theorem literals_push_named (h : t.Indexed) (hnamed : info.named = true) (text : String) :
    t.literals[text]? = findSymbol (SymbolInfo.isLiteral text) (t.symbols.push info) := by
  rw [findSymbol_push_of_false, h.literals]
  simp only [SymbolInfo.isLiteral, hnamed, Bool.not_true, Bool.and_false, Bool.false_and]

theorem names_push_unnamed (h : t.Indexed) (hnamed : info.named = false) (name : String) :
    t.names[name]? = findSymbol (SymbolInfo.isNamed name) (t.symbols.push info) := by
  rw [findSymbol_push_of_false, h.names]
  simp only [SymbolInfo.isNamed, hnamed, Bool.false_and]

end Push

theorem Indexed.addLexicalRule {t t' : Terminals} {name : String} {body : Rule} (hwf : t.WellFormed)
    (h : t.Indexed) (hadd : t.addLexicalRule name body = .ok t') : t'.Indexed := by
  rw [Terminals.addLexicalRule] at hadd
  obtain ⟨found, _, hadd⟩ := exists_of_bind_eq_ok hadd
  cases found with
  | none =>
      cases hadd
      exact h
  | some found =>
      obtain ⟨⟨s, symbols⟩, hsymbol, hadd⟩ := exists_of_bind_eq_ok hadd
      obtain ⟨_, hindex, rfl⟩ := addSymbol_eq_ok hsymbol
      cases hadd
      refine ⟨names_insert h hindex rfl rfl, literals_push_named h rfl, fun source => ?_,
        plain_push h ⟨rfl, rfl⟩⟩
      rw [findPattern_push_of_false, findPattern_push_symbol hwf, ← h.patterns]
      simp only [TokenDef.isPattern, hindex, getD_push_size, Bool.not_true, Bool.and_false]

theorem Indexed.addLiteral {t t' : Terminals} {text : String} (hwf : t.WellFormed) (h : t.Indexed)
    (hadd : t.addLiteral text = .ok t') : t'.Indexed := by
  rw [Terminals.addLiteral] at hadd
  split at hadd
  · cases hadd
    exact h
  · obtain ⟨⟨s, symbols⟩, hsymbol, hadd⟩ := exists_of_bind_eq_ok hadd
    obtain ⟨_, hindex, rfl⟩ := addSymbol_eq_ok hsymbol
    cases hadd
    refine ⟨names_push_unnamed h rfl, fun other => ?_, fun source => ?_, plain_push h ⟨rfl, rfl⟩⟩
    · rw [Std.HashMap.getElem?_insert, findSymbol_push, ← hindex, Symbol.ofIndex_index, h.literals]
      rfl
    · rw [findPattern_push_of_false, findPattern_push_symbol hwf, ← h.patterns]
      simp only [TokenDef.isPattern, Bool.not_true, Bool.and_false, Bool.false_and]

theorem Indexed.addPattern {t t' : Terminals} {owner source : String} (hwf : t.WellFormed)
    (h : t.Indexed) (hadd : t.addPattern owner source = .ok t') : t'.Indexed := by
  rw [Terminals.addPattern] at hadd
  split at hadd
  · cases hadd
    exact h
  · rename_i hnew
    obtain ⟨⟨s, symbols⟩, hsymbol, hadd⟩ := exists_of_bind_eq_ok hadd
    obtain ⟨_, hindex, rfl⟩ := addSymbol_eq_ok hsymbol
    cases hadd
    refine ⟨names_push_unnamed h rfl, fun text => ?_, fun other => ?_, plain_push h ⟨rfl, rfl⟩⟩
    · rw [findSymbol_push_of_false, h.literals]
      rfl
    · rw [Std.HashMap.getElem?_insert]
      split
      · rename_i heq
        obtain rfl := eq_of_beq heq
        rw [findPattern_push_of_true]
        · simp only [TokenDef.isPattern, hindex, getD_push_size, beq_self_eq_true, Bool.not_false,
            Bool.and_self]
        · rw [findPattern_push_symbol hwf, ← h.patterns]
          exact Std.HashMap.getElem?_eq_none hnew
      · rename_i hne
        rw [findPattern_push_of_false, findPattern_push_symbol hwf, ← h.patterns]
        rw [TokenDef.isPattern, Bool.eq_false_iff.2 hne, Bool.false_and, Bool.false_and]

theorem Indexed.addExternal {t t' : Terminals} {name : String} {s : Symbol} (hwf : t.WellFormed)
    (h : t.Indexed) (hadd : t.addExternal name = .ok (s, t')) : t'.Indexed := by
  rw [Terminals.addExternal] at hadd
  obtain ⟨⟨s', symbols⟩, hsymbol, hadd⟩ := exists_of_bind_eq_ok hadd
  obtain ⟨_, hindex, rfl⟩ := addSymbol_eq_ok hsymbol
  cases hadd
  refine ⟨names_insert h hindex rfl rfl, literals_push_named h rfl, fun source => ?_,
    plain_push h ⟨rfl, rfl⟩⟩
  rw [findPattern_push_symbol hwf, ← h.patterns]

end Terminals

theorem GrammarDef.indexed_terminals {d : GrammarDef} {t : Terminals} {externals : List Symbol}
    (h : d.terminals = .ok (t, externals)) : t.Indexed := by
  refine (GrammarDef.terminals_induction (fun t _ => t.WellFormed ∧ t.Indexed) h
    ⟨Terminals.wellFormed_initial, Terminals.indexed_initial⟩ ?_ ?_ ?_ ?_ ?_).2
  · rintro t name body t' ⟨hwf, ht⟩ hadd
    exact ⟨(Terminals.addLexicalRule_eq_ok hwf hadd).1, ht.addLexicalRule hwf hadd⟩
  · rintro t ⟨hwf, ht⟩
    exact ⟨⟨hwf.pos, hwf.size, hwf.names, hwf.literals, hwf.patterns, hwf.tokens, hwf.literalTexts⟩,
      ⟨ht.names, ht.literals, ht.patterns, ht.plain⟩⟩
  · rintro t text t' ⟨hwf, ht⟩ hadd
    exact ⟨(Terminals.addLiteral_eq_ok hwf hadd).1, ht.addLiteral hwf hadd⟩
  · rintro t owner source t' ⟨hwf, ht⟩ hadd
    exact ⟨(Terminals.addPattern_eq_ok hwf hadd).1, ht.addPattern hwf hadd⟩
  · rintro t externals name s t' ⟨hwf, ht⟩ hadd
    exact ⟨(Terminals.addExternal_eq_ok hwf hadd).1, ht.addExternal hwf hadd⟩

end IncrementalLR
