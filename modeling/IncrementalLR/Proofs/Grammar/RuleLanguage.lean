import IncrementalLR.Proofs.Grammar.Lookup
import IncrementalLR.Proofs.Grammar.Unfolding

/-!
# What rule expressions stand for

A rule expression is a regular expression over the symbols of the grammar: a choice is a union, a
sequence a product, a repetition a Kleene star. Expansion turns it into flat alternatives and
auxiliary symbols, and these come to the same strings: the productions of a rule, unfolded, are the
strings that the rule expression stands for.
-/

namespace IncrementalLR

open scoped Computability

/-! ### Languages of rule expressions -/

/-- The token that a lexical expression inside a rule stands for. -/
def Rule.tokenLanguage (g : Grammar) (owner : String) : Rule → FormalLanguage Symbol
  | .literal text => {[g.literalSymbol text]}
  | body => {w | ∃ source, tokenSource owner body = .ok source ∧ w = [g.patternSymbol source]}

mutual

/-- The strings that a rule expression stands for. Precedences and labels say nothing of them. -/
def Rule.language (g : Grammar) (owner : String) : Rule → FormalLanguage Symbol
  | .blank => 1
  | .literal text => {[g.literalSymbol text]}
  | .pattern source => {[g.patternSymbol source]}
  | .token body => body.tokenLanguage g owner
  | .symbol name => {[g.nameSymbol name]}
  | .seq items => languageSeq g owner items
  | .choice items => languageChoice g owner items
  | .zeroOrMore body => (language g owner body)∗
  | .oneOrMore body => language g owner body * (language g owner body)∗
  | .optional body => language g owner body + 1
  | .ranked _ _ body => language g owner body
  | .weighted _ body => language g owner body
  | .field _ body => language g owner body

def Rule.languageSeq (g : Grammar) (owner : String) : List Rule → FormalLanguage Symbol
  | [] => 1
  | item :: items => language g owner item * languageSeq g owner items

def Rule.languageChoice (g : Grammar) (owner : String) : List Rule → FormalLanguage Symbol
  | [] => 0
  | item :: items => language g owner item + languageChoice g owner items

end

mutual

/-- A repetition of one or more, outside of tokens. -/
def Rule.hasOneOrMore : Rule → Bool
  | .oneOrMore _ => true
  | .seq items => anyHasOneOrMore items
  | .choice items => anyHasOneOrMore items
  | .zeroOrMore body => hasOneOrMore body
  | .optional body => hasOneOrMore body
  | .ranked _ _ body => hasOneOrMore body
  | .weighted _ body => hasOneOrMore body
  | .field _ body => hasOneOrMore body
  | .blank => false
  | .literal _ => false
  | .pattern _ => false
  | .symbol _ => false
  | .token _ => false

def Rule.anyHasOneOrMore : List Rule → Bool
  | [] => false
  | item :: items => hasOneOrMore item || anyHasOneOrMore items

end

/-! ### Alternatives -/

/-- What the alternatives come to. -/
def Grammar.alternatives (g : Grammar) (alts : List Alternative) : FormalLanguage Symbol :=
  g.unfoldings (alts.map Alternative.symbols)

namespace Alternative

variable {g : Grammar}

theorem alternatives_empty : g.alternatives [{}] = 1 :=
  (Grammar.unfoldings_singleton []).trans Grammar.unfolding_nil

theorem alternatives_append (as bs : List Alternative) :
    g.alternatives (as ++ bs) = g.alternatives as + g.alternatives bs := by
  rw [Grammar.alternatives, List.map_append, Grammar.unfoldings_append]
  rfl

theorem map_symbols_product (as bs : List Alternative) :
    (product as bs).map symbols
      = (as.map symbols).flatMap fun u => (bs.map symbols).map fun v => u ++ v := by
  rw [product, List.map_flatMap, List.flatMap_map]
  refine List.flatMap_congr fun a _ => ?_
  rw [List.map_map, List.map_map]
  exact List.map_congr_left fun b _ => symbols_append a b

theorem alternatives_product (as bs : List Alternative) :
    g.alternatives (product as bs) = g.alternatives as * g.alternatives bs := by
  rw [Grammar.alternatives, map_symbols_product, Grammar.unfoldings_product]
  rfl

/-- What leaves the symbols as they are changes nothing. -/
theorem alternatives_map {f : Alternative → Alternative} (hf : ∀ a, (f a).symbols = a.symbols)
    (as : List Alternative) : g.alternatives (as.map f) = g.alternatives as := by
  rw [Grammar.alternatives, List.map_map]
  exact congrArg g.unfoldings (List.map_congr_left fun a _ => hf a)

/-- What `distinct` leaves out has the symbols of an alternative in front of it. -/
theorem symbols_mem_distinct {as : List Alternative} {a : Alternative} (ha : a ∈ as) :
    a.symbols ∈ (distinct as).map symbols := by
  have hfold := @foldl_induction Alternative (List Alternative × Std.HashMap (List Symbol) Unit)
    (fun state a => if state.2.contains a.symbols then state
      else (a :: state.1, state.2.insert a.symbols ()))
    (fun done state => (∀ u, state.2.contains u = true → u ∈ state.1.map symbols) ∧
      ∀ a ∈ done, a.symbols ∈ state.1.map symbols)
    as ([], {}) (by simp) (by
    rintro done b rest ⟨found, seen⟩ _ ⟨hseen, hdone⟩
    simp only at hseen hdone ⊢
    split
    · rename_i hb
      refine ⟨hseen, fun a ha => ?_⟩
      rcases List.mem_append.1 ha with ha | ha
      · exact hdone a ha
      · rw [List.mem_singleton.1 ha]
        exact hseen _ hb
    · refine ⟨fun u hu => ?_, fun a ha => ?_⟩
      · rw [Std.HashMap.contains_insert, Bool.or_eq_true, beq_iff_eq] at hu
        rcases hu with rfl | hu
        · exact List.mem_cons_self
        · exact List.mem_cons_of_mem _ (hseen u hu)
      · rcases List.mem_append.1 ha with ha | ha
        · exact List.mem_cons_of_mem _ (hdone a ha)
        · rw [List.mem_singleton.1 ha]
          exact List.mem_cons_self)
  rw [distinct, List.map_reverse]
  exact List.mem_reverse.2 (hfold.2 a ha)

theorem mem_map_symbols_distinct {as : List Alternative} {u : List Symbol} :
    u ∈ (distinct as).map symbols ↔ u ∈ as.map symbols := by
  constructor
  · intro hu
    obtain ⟨a, ha, rfl⟩ := List.mem_map.1 hu
    exact List.mem_map.2 ⟨a, mem_of_mem_distinct ha, rfl⟩
  · intro hu
    obtain ⟨a, ha, rfl⟩ := List.mem_map.1 hu
    exact symbols_mem_distinct ha

end Alternative

/-! ### What expansion adds -/

/-- The auxiliary symbols are numbered from the given number on, and each has alternatives once. -/
structure Expansion.Numbered (n : Nat) (e : Expansion) : Prop where
  size : n ≤ e.symbols.size
  auxiliary : ∀ entry ∈ e.auxiliaries, n ≤ entry.1.index ∧
    ∃ info, e.symbols[entry.1.index]? = some info ∧ info.kind = .auxiliary
  distinct : e.auxiliaries.Pairwise fun a b => a.1 ≠ b.1

/-- Nothing but auxiliary symbols and their alternatives is added. -/
structure Expansion.Adds (n : Nat) (e e' : Expansion) : Prop where
  grows : e.Grows e'
  auxiliaries : e.auxiliaries <:+ e'.auxiliaries
  numbered : e.Numbered n → e'.Numbered n
  find : ∀ P : SymbolInfo → Bool, (∀ name, P ⟨name, .auxiliary, false, false, false⟩ = false) →
    findSymbol P e'.symbols = findSymbol P e.symbols

namespace Expansion.Adds

variable {n : Nat} {e e' e'' : Expansion}

theorem refl (n : Nat) (e : Expansion) : Adds n e e :=
  ⟨.refl e, List.suffix_refl _, id, fun _ _ => rfl⟩

theorem trans (h : Adds n e e') (h' : Adds n e' e'') : Adds n e e'' :=
  ⟨h.grows.trans h'.grows, h.auxiliaries.trans h'.auxiliaries, h'.numbered ∘ h.numbered,
    fun P hP => (h'.find P hP).trans (h.find P hP)⟩

end Expansion.Adds

theorem adds_addRepetition {scope : ExpansionScope} {alts : List Alternative} {e e' : Expansion}
    {result : Option Symbol} (n : Nat) (hadd : addRepetition scope alts e = .ok (result, e')) :
    Expansion.Adds n e e' := by
  cases addRepetition_spec hadd with
  | nothing => exact .refl n e
  | symbol s name _ hindex =>
    refine ⟨?_, List.suffix_cons _ _, fun hn => ⟨?_, ?_, ?_⟩, fun P hP => ?_⟩
    · rw [Expansion.Grows, Array.toList_push]
      exact List.prefix_append _ _
    · rw [Array.size_push]
      exact Nat.le_succ_of_le hn.size
    · intro entry hentry
      rcases List.mem_cons.1 hentry with rfl | hentry
      · refine ⟨by simpa only [hindex] using hn.size,
          ⟨name, .auxiliary, false, false, false⟩, ?_, rfl⟩
        rw [hindex, Array.getElem?_push_size]
      · obtain ⟨hlow, info, hinfo, hkind⟩ := hn.auxiliary entry hentry
        obtain ⟨hlt, _⟩ := Array.getElem?_eq_some_iff.1 hinfo
        refine ⟨hlow, info, ?_, hkind⟩
        rw [Array.getElem?_push_lt hlt, ← hinfo, Array.getElem?_eq_getElem hlt]
    · rw [List.pairwise_cons]
      refine ⟨fun entry hentry heq => ?_, hn.distinct⟩
      obtain ⟨_, info, hinfo, _⟩ := hn.auxiliary entry hentry
      obtain ⟨hlt, _⟩ := Array.getElem?_eq_some_iff.1 hinfo
      simp only at heq
      rw [← heq, hindex] at hlt
      exact Nat.lt_irrefl _ hlt
    · rw [findSymbol_push_of_false (hP name)]

section Expand

variable {scope : ExpansionScope}

theorem carries_adds (scope : ExpansionScope) (n : Nat) : Carries scope (Expansion.Adds n) :=
  ⟨.refl n, .trans, adds_addRepetition n⟩

end Expand

/-! ### The alternatives of a rule -/

/-- What has been added to the expansion is in the grammar. -/
def Grammar.Records (g : Grammar) (e : Expansion) : Prop :=
  ∀ entry ∈ e.auxiliaries, g.IsAuxiliary entry.1 ∧
    ∀ rhs, g.Produces entry.1 rhs ↔ rhs ∈ entry.2.map Alternative.symbols

theorem Grammar.Records.mono {g : Grammar} {e e' : Expansion} (h : g.Records e')
    (hle : e.auxiliaries <:+ e'.auxiliaries) : g.Records e :=
  fun entry hentry => h entry (hle.subset hentry)

/-- What is in scope leads to the symbols that the grammar has for it. -/
structure ExpansionScope.Resolves (scope : ExpansionScope) (g : Grammar) : Prop where
  names : ∀ (name : String) (s : Symbol), scope.names[name]? = some s →
    g.nameSymbol name = s ∧ ¬ g.IsAuxiliary s
  literals : ∀ text, scope.literalSymbol text = g.literalSymbol text ∧
    ¬ g.IsAuxiliary (g.literalSymbol text)
  patterns : ∀ source, scope.patternSymbol source = g.patternSymbol source ∧
    ¬ g.IsAuxiliary (g.patternSymbol source)

end IncrementalLR
