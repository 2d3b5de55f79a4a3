import Mathlib.Data.List.Pairwise
import IncrementalLR.Proofs.Grammar.Meaning

/-!
# Repetitions

The auxiliary symbol of a repetition has an alternative once by itself and once behind the symbol. Both
weigh the same, so a list of parts and a chain of them have the same dynamic precedence. On a right-hand
side of its own an auxiliary symbol comes first and only once, and the rest of that right-hand side is
another one. The symbols are made up in loading, so no tree shows them. Tokens and rules keep their own
kinds throughout.
-/

namespace IncrementalLR

namespace Alternative

variable {s : Symbol} {a b : Alternative} {as : List Alternative}

/-- What `distinct` keeps is the first alternative with its symbols. -/
theorem find?_of_mem_distinct (h : a ∈ distinct as) :
    as.find? (fun other => decide (other.symbols = a.symbols)) = some a := by
  have hfold := @foldl_induction Alternative (List Alternative × Std.HashMap (List Symbol) Unit)
    (fun state a => if state.2.contains a.symbols then state
      else (a :: state.1, state.2.insert a.symbols ()))
    (fun done state => (∀ a ∈ done, state.2.contains a.symbols = true) ∧
      ∀ a ∈ state.1, done.find? (fun other => decide (other.symbols = a.symbols)) = some a)
    as ([], {}) (by simp) (by
    rintro done b rest ⟨found, seen⟩ _ ⟨hseen, hfound⟩
    simp only at hseen hfound ⊢
    have hkept : ∀ a ∈ found,
        (done ++ [b]).find? (fun other => decide (other.symbols = a.symbols)) = some a := by
      intro a ha
      rw [List.find?_append, hfound a ha, Option.some_or]
    split
    · rename_i hb
      refine ⟨fun a ha => ?_, hkept⟩
      rcases List.mem_append.1 ha with ha | ha
      · exact hseen a ha
      · rw [List.mem_singleton.1 ha]
        exact hb
    · rename_i hb
      refine ⟨fun a ha => ?_, fun a ha => ?_⟩
      · rw [Std.HashMap.contains_insert, Bool.or_eq_true, beq_iff_eq]
        rcases List.mem_append.1 ha with ha | ha
        · exact .inr (hseen a ha)
        · rw [List.mem_singleton.1 ha]
          exact .inl rfl
      · rcases List.mem_cons.1 ha with rfl | ha
        · have hnone : done.find? (fun other => decide (other.symbols = a.symbols)) = none := by
            refine List.find?_eq_none.2 fun other hother heq => hb ?_
            rw [← of_decide_eq_true heq]
            exact hseen other hother
          rw [List.find?_append, hnone, Option.none_or]
          exact List.find?_cons_of_pos (decide_eq_true rfl)
        · exact hkept a ha)
  exact hfold.2 a (List.mem_reverse.1 h)

theorem dynamic_append_single (s : Symbol) (a : Alternative) :
    ((single s).append a).dynamic = a.dynamic := by
  rw [append]
  split
  · rfl
  · rename_i hzero
    exact (Decidable.not_not.1 hzero).symm

/-- An alternative that starts with the repetition is another one behind it, which does not have the
repetition in it. -/
theorem Repeats.eq_append (h : Repeats s as) (ha : a ∈ distinct as) (hb : b ∈ distinct as)
    (hsymbols : a.symbols = s :: b.symbols) : a = (single s).append b ∧ s ∉ b.symbols := by
  obtain ⟨base, rfl, hfree⟩ := h
  have hbase : b ∈ base := by
    rcases List.mem_append.1 (mem_of_mem_distinct ha) with hmem | hmem
    · obtain ⟨c, hc, rfl⟩ := List.mem_map.1 hmem
      rw [symbols_append] at hsymbols
      have hrest : c.symbols = b.symbols := (List.cons.inj hsymbols).2
      rcases List.mem_append.1 (mem_of_mem_distinct hb) with hmem | hmem
      · obtain ⟨d, _, rfl⟩ := List.mem_map.1 hmem
        refine absurd ?_ (hfree c hc)
        rw [hrest, symbols_append]
        exact List.mem_cons_self
      · exact hmem
    · refine absurd ?_ (hfree a hmem)
      rw [hsymbols]
      exact List.mem_cons_self
  have hagain : ∀ c : Alternative, ((single s).append c).symbols = s :: c.symbols :=
    fun c => symbols_append (single s) c
  have hnone : (base.map (single s).append).find? (fun other => decide (other.symbols = b.symbols))
      = none := by
    refine List.find?_eq_none.2 fun other hother heq => hfree b hbase ?_
    obtain ⟨c, _, rfl⟩ := List.mem_map.1 hother
    rw [← of_decide_eq_true heq, hagain]
    exact List.mem_cons_self
  have hfirst := find?_of_mem_distinct hb
  rw [List.find?_append, hnone, Option.none_or] at hfirst
  have hlinked := find?_of_mem_distinct ha
  have hsame : ((fun other : Alternative => decide (other.symbols = a.symbols)) ∘ (single s).append)
      = fun other => decide (other.symbols = b.symbols) := by
    funext c
    simp only [Function.comp, hagain, hsymbols, List.cons.injEq, true_and]
  rw [List.find?_append, List.find?_map, hsame, hfirst, Option.map_some, Option.some_or,
    Option.some.injEq] at hlinked
  exact ⟨hlinked.symm, hfree b hbase⟩

end Alternative

/-- The productions come from rules, or from the alternatives of auxiliary symbols. -/
theorem exists_origin_of_expandRules {scopeOf : String → Symbol → ExpansionScope}
    {symbols : Array SymbolInfo} {rules : List (String × Rule × Symbol)} {expansion : Expansion}
    {productions : List Production}
    (h : expandRules scopeOf symbols rules = .ok (expansion, productions)) {p : Production}
    (hp : p ∈ productions) : (∃ rule ∈ rules, p.lhs = rule.2.2) ∨
      ∃ entry ∈ expansion.auxiliaries, ∃ a ∈ Alternative.distinct entry.2,
        a.toProduction entry.1 = p := by
  obtain ⟨ps, hps, rfl⟩ := expandRules_induction
    (fun done _ ps => ∀ p ∈ ps, ∃ rule ∈ done, p.lhs = rule.2.2) h (by simp) (by
    rintro done name body s rest e e' alts ps rfl _ _ hps p hp
    rcases List.mem_append.1 hp with hp | hp
    · obtain ⟨rule, hrule, hlhs⟩ := hps p hp
      exact ⟨rule, List.mem_append_left _ hrule, hlhs⟩
    · obtain ⟨a, _, rfl⟩ := List.mem_map.1 hp
      exact ⟨_, List.mem_append_right _ List.mem_cons_self, rfl⟩)
  rcases List.mem_append.1 hp with hp | hp
  · exact .inl (hps p hp)
  · obtain ⟨entry, hentry, hp⟩ := List.mem_flatMap.1 hp
    obtain ⟨a, ha, rfl⟩ := List.mem_map.1 hp
    exact .inr ⟨entry, List.mem_reverse.1 hentry, a, ha, rfl⟩

namespace Grammar

variable {d : GrammarDef} {g : Grammar}

/-- A production of an auxiliary symbol and the one with its rest weigh the same. -/
def RepeatsEvenly (g : Grammar) : Prop :=
  ∀ p ∈ g.productions, ∀ q ∈ g.productions, (g.symbolInfo p.lhs).kind = .auxiliary →
    q.lhs = p.lhs → p.rhs = p.lhs :: q.rhs → p.dynamicPrecedence = q.dynamicPrecedence

/-- The alternatives of an auxiliary symbol that stands on a right-hand side of its own. -/
theorem Expanded.exists_alternative {scopeOf : String → Symbol → ExpansionScope}
    {symbols : Array SymbolInfo} {rules : List (String × Rule × Symbol)} {expansion : Expansion}
    {productions : List Production} (hg : g.WellFormed)
    (h : g.Expanded scopeOf symbols rules expansion productions) {p : Production}
    (hp : p ∈ g.productions) (haux : (g.symbolInfo p.lhs).kind = .auxiliary)
    (hne : p.lhs ≠ g.augmented) :
    ∃ entry ∈ expansion.auxiliaries, ∃ a ∈ Alternative.distinct entry.2,
      a.toProduction entry.1 = p := by
  obtain ⟨first, hproductions, _⟩ := h.productions_eq
  obtain ⟨start, hstart, hlhs, _⟩ := hg.start
  rw [← Array.mem_toList_iff, hproductions] at hp
  rcases List.mem_cons.1 hp with rfl | hp
  · rw [← Array.getElem?_toList, hproductions, List.getElem?_cons_zero, Option.some.injEq] at hstart
    exact absurd (hstart ▸ hlhs) hne
  rcases exists_origin_of_expandRules h.expand hp with ⟨rule, hrule, heq⟩ | horigin
  · obtain ⟨info, hinfo, hkind⟩ := h.kinds rule hrule
    have hfound : g.symbols[p.lhs.index]? = some info := by
      rw [heq, h.symbols_eq]
      exact getElem?_of_toList_isPrefix h.grows hinfo
    have hsize := hg.size
    obtain ⟨hbelow, _⟩ := Array.getElem?_eq_some_iff.1 hfound
    rw [symbolInfo, if_neg (Symbol.ne_error_of_index_lt (Nat.lt_of_lt_of_le hbelow hsize)),
      Array.getD_eq_getD_getElem?, hfound, Option.getD_some, hkind] at haux
    cases haux
  · exact horigin

/-- Two productions of an auxiliary symbol, one of which is the other behind the symbol, come from one
alternative. -/
theorem exists_repeated_of_load (h : Grammar.load d = .ok g) {p q : Production}
    (hp : p ∈ g.productions) (hq : q ∈ g.productions) (haux : (g.symbolInfo p.lhs).kind = .auxiliary)
    (hlhs : q.lhs = p.lhs) (hrhs : p.rhs = p.lhs :: q.rhs) :
    ∃ a : Alternative, p = ((Alternative.single p.lhs).append a).toProduction p.lhs ∧
      q = a.toProduction p.lhs ∧ p.lhs ∉ a.symbols := by
  obtain ⟨hg, scopeOf, symbols, rules, expansion, productions, hexpanded⟩ := load_spec h
  have hne : p.lhs ≠ g.augmented := by
    refine (hg.rhs p hp p.lhs ?_).2.1
    rw [hrhs]
    exact List.mem_cons_self
  obtain ⟨entry, hentry, a, ha, rfl⟩ := hexpanded.exists_alternative hg hp haux hne
  obtain ⟨entry', hentry', b, hb, rfl⟩ :=
    hexpanded.exists_alternative hg hq (hlhs ▸ haux) (hlhs ▸ hne)
  obtain rfl : entry' = entry := by
    by_cases hsame : entry' = entry
    · exact hsame
    · have : Std.Symm fun x y : Symbol × List Alternative => x.1 ≠ y.1 := ⟨fun _ _ hne => hne.symm⟩
      exact absurd hlhs (hexpanded.wellFormed.distinct.forall hentry' hentry hsame)
  rw [Alternative.rhs_toProduction, Alternative.rhs_toProduction] at hrhs
  obtain ⟨rfl, hfree⟩ := (hexpanded.wellFormed.repeats entry' hentry).eq_append ha hb hrhs
  exact ⟨b, rfl, rfl, hfree⟩

theorem repeatsEvenly_of_load (h : Grammar.load d = .ok g) : g.RepeatsEvenly := by
  intro p hp q hq haux hlhs hrhs
  obtain ⟨a, hpa, hqa, _⟩ := exists_repeated_of_load h hp hq haux hlhs hrhs
  rw [hpa, hqa]
  exact Alternative.dynamic_append_single p.lhs a

/-- A production of an auxiliary symbol that starts with the symbol has the labels of its rest, and its
rest does not have the symbol again. -/
def RepeatsAlike (g : Grammar) : Prop :=
  ∀ p ∈ g.productions, ∀ q ∈ g.productions, (g.symbolInfo p.lhs).kind = .auxiliary →
    q.lhs = p.lhs → p.rhs = p.lhs :: q.rhs →
    p.steps.toList.map (·.field) = none :: q.steps.toList.map (·.field) ∧ p.lhs ∉ q.rhs

theorem repeatsAlike_of_load (h : Grammar.load d = .ok g) : g.RepeatsAlike := by
  intro p hp q hq haux hlhs hrhs
  obtain ⟨a, hpa, hqa, hfree⟩ := exists_repeated_of_load h hp hq haux hlhs hrhs
  constructor
  · rw [hpa, hqa]
    rfl
  · rw [hqa, Alternative.rhs_toProduction]
    exact hfree

end Grammar

/-! ### Hidden symbols -/

/-- An auxiliary symbol that can be seen. -/
def SymbolInfo.isSeenAuxiliary (info : SymbolInfo) : Bool := info.kind == .auxiliary && info.visible

theorem findSymbol_eq_none_iff {P : SymbolInfo → Bool} {symbols : Array SymbolInfo} :
    findSymbol P symbols = none ↔
      ∀ i < symbols.size, P (symbols.getD i SymbolInfo.error) = false := by
  simp [findSymbol]

theorem Loading.findSymbol_isSeenAuxiliary {d : GrammarDef} {g : Grammar} (L : Loading d g) :
    findSymbol SymbolInfo.isSeenAuxiliary g.symbols = none := by
  have hrules : findSymbol SymbolInfo.isSeenAuxiliary L.symbols = findSymbol
      SymbolInfo.isSeenAuxiliary
        (L.extras.symbols.push ⟨augmentedStartName, .auxiliary, false, false, false⟩) :=
    addNonterminals_induction (fun _ symbols _ => findSymbol SymbolInfo.isSeenAuxiliary symbols = _)
      L.rules_eq rfl (fun _ _ _ _ _ _ _ _ hdone => hdone)
      fun _ _ _ _ _ _ _ _ _ _ _ hdone => (findSymbol_push_of_false rfl _).trans hdone
  rw [L.symbols_of, L.adds.find _ fun _ => rfl, hrules, findSymbol_push_of_false rfl,
    findSymbol_core (fun _ => rfl) L.size_extras L.core_extras, findSymbol_eq_none_iff]
  intro i hi
  have hterminal := (L.terminals_indexed.plain i hi).1
  generalize L.terminals.symbols.getD i SymbolInfo.error = info at hterminal
  obtain ⟨name, kind, visible, named, extra⟩ := info
  cases kind with
  | auxiliary => cases hterminal
  | _ => rfl

/-- An auxiliary symbol is hidden. -/
theorem Grammar.visible_of_isAuxiliary {d : GrammarDef} {g : Grammar} (h : Grammar.load d = .ok g)
    {s : Symbol} (hs : g.IsAuxiliary s) : (g.symbolInfo s).visible = false := by
  obtain ⟨L⟩ := exists_loading h
  have hnone := findSymbol_eq_none_iff.1 L.findSymbol_isSeenAuxiliary s.index
  rw [IsAuxiliary, symbolInfo] at hs
  rw [symbolInfo]
  split at hs
  · cases hs
  · rename_i hne
    rw [if_neg hne]
    by_cases hlt : s.index < g.symbols.size
    · have hseen := hnone hlt
      rwa [SymbolInfo.isSeenAuxiliary, hs, beq_self_eq_true, Bool.true_and] at hseen
    · rw [Array.getD_eq_getD_getElem?, Array.getElem?_eq_none (Nat.le_of_not_lt hlt)] at hs
      cases hs

/-- The alternatives of auxiliary symbols become productions. -/
theorem toProduction_mem_of_expandRules {scopeOf : String → Symbol → ExpansionScope}
    {symbols : Array SymbolInfo} {rules : List (String × Rule × Symbol)} {expansion : Expansion}
    {productions : List Production}
    (h : expandRules scopeOf symbols rules = .ok (expansion, productions))
    {entry : Symbol × List Alternative} (hentry : entry ∈ expansion.auxiliaries) {a : Alternative}
    (ha : a ∈ Alternative.distinct entry.2) : a.toProduction entry.1 ∈ productions := by
  obtain ⟨ps, _, rfl⟩ := expandRules_induction (fun _ _ _ => True) h trivial
    fun _ _ _ _ _ _ _ _ _ _ _ _ _ => trivial
  refine List.mem_append_right ps (List.mem_flatMap.2 ⟨entry, List.mem_reverse.2 hentry, ?_⟩)
  exact List.mem_map_of_mem ha

/-- A production of an auxiliary symbol with the symbol on its right-hand side goes on with another
production behind the symbol. -/
theorem Grammar.exists_rest_of_load {d : GrammarDef} {g : Grammar} (h : Grammar.load d = .ok g)
    {p : Production} (hp : p ∈ g.productions) (haux : (g.symbolInfo p.lhs).kind = .auxiliary)
    (hmem : p.lhs ∈ p.rhs) : ∃ q ∈ g.productions, q.lhs = p.lhs ∧ p.rhs = p.lhs :: q.rhs := by
  obtain ⟨hg, scopeOf, symbols, rules, expansion, productions, hexpanded⟩ := load_spec h
  obtain ⟨entry, hentry, a, ha, rfl⟩ :=
    hexpanded.exists_alternative hg hp haux (hg.rhs p hp p.lhs hmem).2.1
  obtain ⟨base, hbase, hfree⟩ := hexpanded.wellFormed.repeats entry hentry
  rw [Alternative.rhs_toProduction] at hmem ⊢
  have ha' := Alternative.mem_of_mem_distinct ha
  rw [hbase] at ha'
  rcases List.mem_append.1 ha' with hrepeated | honce
  · obtain ⟨c, hc, rfl⟩ := List.mem_map.1 hrepeated
    obtain ⟨b, hb, hsymbols⟩ := List.mem_map.1
      (Alternative.symbols_mem_distinct (hbase ▸ List.mem_append_right _ hc))
    obtain ⟨first, hproductions, _⟩ := hexpanded.productions_eq
    refine ⟨b.toProduction entry.1, ?_, rfl, ?_⟩
    · rw [← Array.mem_toList_iff, hproductions]
      exact List.mem_cons_of_mem _ (toProduction_mem_of_expandRules hexpanded.expand hentry hb)
    · rw [Alternative.rhs_toProduction, hsymbols, Alternative.symbols_append]
      rfl
  · exact absurd hmem (hfree a honce)

end IncrementalLR
