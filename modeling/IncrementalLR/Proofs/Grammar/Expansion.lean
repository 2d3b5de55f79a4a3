import IncrementalLR.Proofs.Collections
import IncrementalLR.Proofs.Grammar.Expands

/-!
# The symbols of expanded rules

Every symbol that expansion writes into an alternative is a symbol of the grammar other than the end
of input and the augmented start symbol. Expansion only adds symbols, so this stays true.
-/

namespace IncrementalLR

/-- A symbol that may stand on the right-hand side of a production. -/
def Symbol.Usable (s augmented : Symbol) (size : Nat) : Prop :=
  s ≠ Symbol.eof ∧ s ≠ augmented ∧ s.index < size

theorem Symbol.Usable.mono {augmented s : Symbol} {size size' : Nat} (h : s.Usable augmented size)
    (hle : size ≤ size') : s.Usable augmented size' :=
  ⟨h.1, h.2.1, Nat.lt_of_lt_of_le h.2.2 hle⟩

theorem Symbol.usable_of_lt {s augmented : Symbol} {size : Nat} (hlow : augmented.index < s.index)
    (hhigh : s.index < size) : s.Usable augmented size := by
  have hzero : Symbol.eof.index = 0 := by decide
  refine ⟨?_, ?_, hhigh⟩
  · rintro rfl
    omega
  · rintro rfl
    exact absurd hlow (Nat.lt_irrefl _)

theorem Symbol.IsToken.usable {size : Nat} {s augmented : Symbol} (h : s.IsToken size)
    (haug : size ≤ augmented.index) {size' : Nat} (hle : size ≤ size') :
    s.Usable augmented size' := by
  refine ⟨?_, ?_, Nat.lt_of_lt_of_le h.2 hle⟩
  · rintro rfl
    exact absurd h.1 (by decide)
  · rintro rfl
    exact absurd h.2 (by omega)

/-- Every symbol of the alternatives may stand on a right-hand side. -/
def Alternative.AllUsable (augmented : Symbol) (size : Nat) (alts : List Alternative) : Prop :=
  ∀ a ∈ alts, ∀ s ∈ a.symbols, s.Usable augmented size

namespace Alternative

variable {augmented : Symbol} {size size' : Nat} {as bs : List Alternative}

theorem AllUsable.mono (h : AllUsable augmented size as) (hle : size ≤ size') :
    AllUsable augmented size' as :=
  fun a ha s hs => (h a ha s hs).mono hle

theorem allUsable_nil : AllUsable augmented size [] := fun _ h => absurd h List.not_mem_nil

theorem allUsable_single {s : Symbol} (h : s.Usable augmented size) :
    AllUsable augmented size [single s] := by
  intro a ha x hx
  rw [List.mem_singleton.1 ha] at hx
  rw [List.mem_singleton.1 hx]
  exact h

theorem allUsable_empty : AllUsable augmented size [{}] := by
  intro a ha x hx
  rw [List.mem_singleton.1 ha] at hx
  exact absurd hx List.not_mem_nil

theorem AllUsable.append (ha : AllUsable augmented size as) (hb : AllUsable augmented size bs) :
    AllUsable augmented size (as ++ bs) := by
  intro a h
  rcases List.mem_append.1 h with h | h
  · exact ha a h
  · exact hb a h

theorem symbols_append (a b : Alternative) : (a.append b).symbols = a.symbols ++ b.symbols :=
  List.map_append

theorem AllUsable.product (ha : AllUsable augmented size as) (hb : AllUsable augmented size bs) :
    AllUsable augmented size (product as bs) := by
  intro c hc s hs
  obtain ⟨a, hamem, hc⟩ := List.mem_flatMap.1 hc
  obtain ⟨b, hbmem, rfl⟩ := List.mem_map.1 hc
  rw [symbols_append] at hs
  rcases List.mem_append.1 hs with hs | hs
  · exact ha a hamem s hs
  · exact hb b hbmem s hs

/-- Precedences and labels leave the symbols as they are. -/
theorem AllUsable.map (h : AllUsable augmented size as) {f : Alternative → Alternative}
    (hf : ∀ a, (f a).symbols = a.symbols) : AllUsable augmented size (as.map f) := by
  intro b hb
  obtain ⟨a, ha, rfl⟩ := List.mem_map.1 hb
  rw [hf]
  exact h a ha

theorem symbols_rank (p : Precedence) (a : Alternative) : (a.rank p).symbols = a.symbols := by
  simp [rank, symbols]

theorem symbols_label (field : FieldId) (a : Alternative) : (a.label field).symbols = a.symbols := by
  simp [label, symbols]

theorem AllUsable.filter (h : AllUsable augmented size as) (p : Alternative → Bool) :
    AllUsable augmented size (as.filter p) :=
  fun a ha => h a (List.mem_filter.1 ha).1

theorem mem_of_mem_distinct {a : Alternative} (h : a ∈ distinct as) : a ∈ as := by
  have hfold : ∀ a ∈ (as.foldl (fun (state : List Alternative × Std.HashMap (List Symbol) Unit) a =>
      if state.2.contains a.symbols then state
      else (a :: state.1, state.2.insert a.symbols ())) ([], {})).1, a ∈ as := by
    refine foldl_induction (fun done (state : List Alternative × Std.HashMap (List Symbol) Unit) =>
      ∀ a ∈ state.1, a ∈ done) (by simp) ?_
    intro done a rest state _ hstate b hb
    split at hb
    · exact List.mem_append_left [a] (hstate b hb)
    · rcases List.mem_cons.1 hb with rfl | hb
      · exact List.mem_append_right done (List.mem_singleton_self b)
      · exact List.mem_append_left [a] (hstate b hb)
  exact hfold a (List.mem_reverse.1 h)

theorem AllUsable.distinct (h : AllUsable augmented size as) :
    AllUsable augmented size (distinct as) :=
  fun a ha => h a (mem_of_mem_distinct ha)

theorem rhs_toProduction (lhs : Symbol) (a : Alternative) : (a.toProduction lhs).rhs = a.symbols := by
  simp [Production.rhs, toProduction, symbols]

end Alternative

/-- The alternatives of a repetition are others without it, and each of these behind the repetition. -/
def Alternative.Repeats (s : Symbol) (alts : List Alternative) : Prop :=
  ∃ base, alts = base.map (single s).append ++ base ∧ ∀ a ∈ base, s ∉ a.symbols

/-- The names and texts in scope lead to symbols that may stand on a right-hand side. -/
structure ExpansionScope.WellFormed (scope : ExpansionScope) (augmented : Symbol) (size : Nat) :
    Prop where
  names : MapsTo scope.names fun s => s.Usable augmented size
  literals : MapsTo scope.literals fun s => s.Usable augmented size
  patterns : MapsTo scope.patterns fun s => s.Usable augmented size

theorem ExpansionScope.WellFormed.mono {scope : ExpansionScope} {augmented : Symbol}
    {size size' : Nat} (h : scope.WellFormed augmented size) (hle : size ≤ size') :
    scope.WellFormed augmented size' :=
  ⟨h.names.mono fun _ hs => hs.mono hle, h.literals.mono fun _ hs => hs.mono hle,
    h.patterns.mono fun _ hs => hs.mono hle⟩

/-- The symbols and productions that expansion has added so far are in order. -/
structure Expansion.WellFormed (e : Expansion) (augmented : Symbol) : Prop where
  size : e.symbols.size ≤ 65535
  augmented_lt : augmented.index < e.symbols.size
  auxiliary : ∀ entry ∈ e.auxiliaries,
    augmented.index < entry.1.index ∧ entry.1.index < e.symbols.size
  alternatives : ∀ entry ∈ e.auxiliaries,
    Alternative.AllUsable augmented e.symbols.size entry.2
  origins : ∀ entry ∈ e.auxOrigin, entry.1 ≠ augmented
  repeats : ∀ entry ∈ e.auxiliaries, Alternative.Repeats entry.1 entry.2
  distinct : e.auxiliaries.Pairwise fun a b => a.1 ≠ b.1

theorem Expansion.WellFormed.lookup_augmented {e : Expansion} {augmented : Symbol}
    (h : e.WellFormed augmented) : e.auxOrigin.lookup augmented = none := by
  rw [List.lookup_eq_none_iff]
  intro entry hentry
  simpa using fun heq => h.origins entry hentry heq.symm

/-- Symbols are only added, behind those that are there. -/
def Expansion.Grows (e e' : Expansion) : Prop := e.symbols.toList <+: e'.symbols.toList

theorem Expansion.Grows.refl (e : Expansion) : e.Grows e := List.prefix_refl _

theorem Expansion.Grows.trans {e e' e'' : Expansion} (h : e.Grows e') (h' : e'.Grows e'') :
    e.Grows e'' :=
  List.IsPrefix.trans h h'

theorem Expansion.Grows.size_le {e e' : Expansion} (h : e.Grows e') :
    e.symbols.size ≤ e'.symbols.size :=
  List.IsPrefix.length_le h

/-- What a step of expansion keeps, and what it makes of the alternatives that it returns. -/
structure Expansion.Step (augmented : Symbol) (e e' : Expansion) (alts : List Alternative) :
    Prop where
  wellFormed : e'.WellFormed augmented
  grows : e.Grows e'
  usable : Alternative.AllUsable augmented e'.symbols.size alts

theorem addRepetition_eq_ok {scope : ExpansionScope} {augmented : Symbol} {alts : List Alternative}
    {e e' : Expansion} {result : Option Symbol} (h : e.WellFormed augmented)
    (halts : Alternative.AllUsable augmented e.symbols.size alts)
    (hadd : addRepetition scope alts e = .ok (result, e')) :
    e'.WellFormed augmented ∧ e.Grows e' ∧
      ∀ s ∈ result, s.Usable augmented e'.symbols.size := by
  cases addRepetition_spec hadd with
  | nothing => exact ⟨h, .refl e, by simp⟩
  | symbol s name hsize hindex =>
    have haug := h.augmented_lt
    have hs : s.Usable augmented (e.symbols.size + 1) := Symbol.usable_of_lt (by omega) (by omega)
    have halts' : Alternative.AllUsable augmented (e.symbols.size + 1)
        (alts.filter fun alt => !alt.steps.isEmpty) :=
      (halts.filter fun alt => !alt.steps.isEmpty).mono (Nat.le_succ _)
    have hagain : Alternative.AllUsable augmented (e.symbols.size + 1)
        ((alts.filter fun alt => !alt.steps.isEmpty).map (Alternative.single s).append) := by
      intro a ha x hx
      obtain ⟨b, hb, rfl⟩ := List.mem_map.1 ha
      rw [Alternative.symbols_append] at hx
      rcases List.mem_append.1 hx with hx | hx
      · rw [List.mem_singleton.1 hx]
        exact hs
      · exact halts' b hb x hx
    refine ⟨⟨?_, ?_, ?_, ?_, ?_, ?_, ?_⟩, ?_, ?_⟩
    · simp only [Array.size_push]
      omega
    · simp only [Array.size_push]
      omega
    · simp only [Array.size_push]
      intro entry hentry
      rcases List.mem_cons.1 hentry with rfl | hentry
      · simp only [hindex]
        omega
      · obtain ⟨hlow, hhigh⟩ := h.auxiliary entry hentry
        exact ⟨hlow, by omega⟩
    · simp only [Array.size_push]
      intro entry hentry
      rcases List.mem_cons.1 hentry with rfl | hentry
      · exact hagain.append halts'
      · exact (h.alternatives entry hentry).mono (Nat.le_succ _)
    · intro entry hentry
      rcases List.mem_cons.1 hentry with rfl | hentry
      · exact hs.2.1
      · exact h.origins entry hentry
    · intro entry hentry
      rcases List.mem_cons.1 hentry with rfl | hentry
      · refine ⟨_, rfl, fun a ha hmem => ?_⟩
        have hlt := (halts a (List.mem_filter.1 ha).1 s hmem).2.2
        exact Nat.lt_irrefl _ (hindex ▸ hlt)
      · exact h.repeats entry hentry
    · refine List.pairwise_cons.2 ⟨fun entry hentry heq => ?_, h.distinct⟩
      have hlt := (h.auxiliary entry hentry).2
      rw [← heq, hindex] at hlt
      exact Nat.lt_irrefl _ hlt
    · rw [Expansion.Grows, Array.toList_push]
      exact List.prefix_append _ _
    · simp only [Array.size_push, Option.mem_some_iff]
      rintro x rfl
      exact hs

section Expand

variable {scope : ExpansionScope} {augmented : Symbol}

theorem mem_patterns_of_tokensIn {literals patterns : Std.HashMap String Symbol} {body : Rule}
    {owner source : String} (hbody : ∀ text, body ≠ .literal text)
    (h : (Rule.token body).TokensIn owner literals patterns)
    (hsource : tokenSource owner body = .ok source) : source ∈ patterns := by
  cases body with
  | literal text => exact absurd rfl (hbody text)
  | _ => exact h source hsource

mutual

/-- A rule whose tokens are in scope expands to usable alternatives. -/
theorem Expands.step {e e' : Expansion} {alts : List Alternative} {rule : Rule}
    (hscope : scope.WellFormed augmented e.symbols.size) (h : e.WellFormed augmented) :
    Expands scope rule e alts e' → rule.TokensIn scope.rule scope.literals scope.patterns →
      Expansion.Step augmented e e' alts
  | .blank, _ => ⟨h, .refl e, Alternative.allUsable_empty⟩
  | .literal _, htokens =>
      ⟨h, .refl e, Alternative.allUsable_single (hscope.literals.getD htokens _)⟩
  | .pattern _, htokens =>
      ⟨h, .refl e, Alternative.allUsable_single (hscope.patterns.getD htokens _)⟩
  | .tokenLiteral _, htokens =>
      ⟨h, .refl e, Alternative.allUsable_single (hscope.literals.getD htokens _)⟩
  | .token hbody hsource, htokens => by
      have hmem := mem_patterns_of_tokensIn hbody htokens hsource
      exact ⟨h, .refl e, Alternative.allUsable_single (hscope.patterns.getD hmem _)⟩
  | .symbol hname, _ => ⟨h, .refl e, Alternative.allUsable_single (hscope.names _ _ hname)⟩
  | .seq hitems, htokens => hitems.step hscope h htokens Alternative.allUsable_empty
  | .choice hitems, htokens => hitems.step hscope h htokens
  | .optional hbody, htokens => by
      obtain ⟨hwf, hgrows, husable⟩ := hbody.step hscope h htokens
      exact ⟨hwf, hgrows, husable.append Alternative.allUsable_empty⟩
  | .oneOrMore hbody hadd, htokens => by
      obtain ⟨hwf, hgrows, husable⟩ := hbody.step hscope h htokens
      obtain ⟨hwf', hgrows', hresult⟩ := addRepetition_eq_ok hwf husable hadd
      exact ⟨hwf', hgrows.trans hgrows', Alternative.allUsable_single (hresult _ rfl)⟩
  | .oneOrMoreNothing hbody hadd, htokens => by
      obtain ⟨hwf, hgrows, husable⟩ := hbody.step hscope h htokens
      obtain ⟨hwf', hgrows', _⟩ := addRepetition_eq_ok hwf husable hadd
      exact ⟨hwf', hgrows.trans hgrows', Alternative.allUsable_empty⟩
  | .zeroOrMore hbody hadd, htokens => by
      obtain ⟨hwf, hgrows, husable⟩ := hbody.step hscope h htokens
      obtain ⟨hwf', hgrows', hresult⟩ := addRepetition_eq_ok hwf husable hadd
      exact ⟨hwf', hgrows.trans hgrows',
        (Alternative.allUsable_single (hresult _ rfl)).append Alternative.allUsable_empty⟩
  | .zeroOrMoreNothing hbody hadd, htokens => by
      obtain ⟨hwf, hgrows, husable⟩ := hbody.step hscope h htokens
      obtain ⟨hwf', hgrows', _⟩ := addRepetition_eq_ok hwf husable hadd
      exact ⟨hwf', hgrows.trans hgrows', Alternative.allUsable_empty⟩
  | .ranked value assoc hbody, htokens => by
      obtain ⟨hwf, hgrows, husable⟩ := hbody.step hscope h htokens
      exact ⟨hwf, hgrows, husable.map (Alternative.symbols_rank ⟨value, assoc⟩)⟩
  | .weighted _ hbody, htokens => by
      obtain ⟨hwf, hgrows, husable⟩ := hbody.step hscope h htokens
      exact ⟨hwf, hgrows, husable.map fun _ => rfl⟩
  | .field name hbody, htokens => by
      obtain ⟨hwf, hgrows, husable⟩ := hbody.step hscope h htokens
      exact ⟨hwf, hgrows, husable.map (Alternative.symbols_label (scope.fieldId name))⟩

theorem ExpandsSeq.step {e e' : Expansion} {before alts : List Alternative} {items : List Rule}
    (hscope : scope.WellFormed augmented e.symbols.size) (h : e.WellFormed augmented) :
    ExpandsSeq scope before items e alts e' →
      Rule.TokensInAll scope.rule scope.literals scope.patterns items →
      Alternative.AllUsable augmented e.symbols.size before → Expansion.Step augmented e e' alts
  | .nil, _, hbefore => ⟨h, .refl e, hbefore⟩
  | .cons hitem hitems, htokens, hbefore => by
      obtain ⟨hwf, hgrows, husable⟩ := hitem.step hscope h htokens.1
      obtain ⟨hwf', hgrows', husable'⟩ := hitems.step (hscope.mono hgrows.size_le) hwf htokens.2
        ((hbefore.mono hgrows.size_le).product husable)
      exact ⟨hwf', hgrows.trans hgrows', husable'⟩

theorem ExpandsChoice.step {e e' : Expansion} {alts : List Alternative} {items : List Rule}
    (hscope : scope.WellFormed augmented e.symbols.size) (h : e.WellFormed augmented) :
    ExpandsChoice scope items e alts e' →
      Rule.TokensInAll scope.rule scope.literals scope.patterns items →
      Expansion.Step augmented e e' alts
  | .nil, _ => ⟨h, .refl e, Alternative.allUsable_nil⟩
  | .cons hitem hitems, htokens => by
      obtain ⟨hwf, hgrows, husable⟩ := hitem.step hscope h htokens.1
      obtain ⟨hwf', hgrows', husable'⟩ := hitems.step (hscope.mono hgrows.size_le) hwf htokens.2
      exact ⟨hwf', hgrows.trans hgrows', (husable.mono hgrows'.size_le).append husable'⟩

end

end Expand

end IncrementalLR
