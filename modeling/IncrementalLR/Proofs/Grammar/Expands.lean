import IncrementalLR.Proofs.Grammar.Terminals

/-!
# What rule expressions expand to

Expansion as a relation between a rule expression, what has been made before it, its alternatives and
what has been made behind it. There is one case for each form of rule expression, and two where
expansion asks whether anything is left to repeat. Facts about expansion are shown by induction on the
relation, so that the expanding function is opened here alone.
-/

namespace IncrementalLR

/-- What a repetition adds: a symbol for the alternatives that are not empty, if there are any. -/
inductive AddsRepetition (scope : ExpansionScope) (alts : List Alternative) (e : Expansion) :
    Option Symbol → Expansion → Prop where
  | nothing (hempty : alts.filter (fun alt => !alt.steps.isEmpty) = []) :
      AddsRepetition scope alts e none e
  | symbol (s : Symbol) (name : String) (hsize : e.symbols.size < 65535)
      (hindex : s.index = e.symbols.size)
      (hne : alts.filter (fun alt => !alt.steps.isEmpty) ≠ []) :
      AddsRepetition scope alts e (some s)
        { e with
          symbols := e.symbols.push ⟨name, .auxiliary, false, false, false⟩
          auxiliaries := (s, (alts.filter fun alt => !alt.steps.isEmpty).map
            (Alternative.single s).append ++ alts.filter fun alt => !alt.steps.isEmpty)
              :: e.auxiliaries
          auxOrigin := (s, scope.ruleSymbol) :: e.auxOrigin
          repeatCount := e.repeatCount + 1 }

theorem addRepetition_spec {scope : ExpansionScope} {alts : List Alternative} {e e' : Expansion}
    {result : Option Symbol} (h : addRepetition scope alts e = .ok (result, e')) :
    AddsRepetition scope alts e result e' := by
  rw [addRepetition] at h
  simp only [] at h
  split at h
  · rename_i hempty
    cases h
    exact .nothing (List.isEmpty_iff.1 hempty)
  · rename_i hne
    obtain ⟨⟨⟨s, symbols⟩, e₂⟩, hlift, h⟩ := exists_of_bind_eq_ok h
    obtain ⟨⟨s', symbols'⟩, hsymbol, hlift⟩ := exists_of_bind_eq_ok hlift
    cases hlift
    obtain ⟨hsize, hindex, rfl⟩ := addSymbol_eq_ok hsymbol
    cases h
    exact .symbol s _ hsize hindex (hne ∘ List.isEmpty_iff.2)

mutual

/-- The expression expands to these alternatives. -/
inductive Expands (scope : ExpansionScope) :
    Rule → Expansion → List Alternative → Expansion → Prop where
  | blank {e} : Expands scope .blank e [{}] e
  | literal {e} (text : String) :
      Expands scope (.literal text) e [.single (scope.literalSymbol text)] e
  | pattern {e} (source : String) :
      Expands scope (.pattern source) e [.single (scope.patternSymbol source)] e
  | tokenLiteral {e} (text : String) :
      Expands scope (.token (.literal text)) e [.single (scope.literalSymbol text)] e
  | token {e body source} (hbody : ∀ text, body ≠ .literal text)
      (hsource : tokenSource scope.rule body = .ok source) :
      Expands scope (.token body) e [.single (scope.patternSymbol source)] e
  | symbol {e name s} (hname : scope.names[name]? = some s) :
      Expands scope (.symbol name) e [.single s] e
  | seq {items e alts e'} (hitems : ExpandsSeq scope [{}] items e alts e') :
      Expands scope (.seq items) e alts e'
  | choice {items e alts e'} (hitems : ExpandsChoice scope items e alts e') :
      Expands scope (.choice items) e alts e'
  | optional {body e alts e'} (hbody : Expands scope body e alts e') :
      Expands scope (.optional body) e (alts ++ [({} : Alternative)]) e'
  | oneOrMore {body e alts e₁ s e'} (hbody : Expands scope body e alts e₁)
      (hadd : addRepetition scope alts e₁ = .ok (some s, e')) :
      Expands scope (.oneOrMore body) e [.single s] e'
  | oneOrMoreNothing {body e alts e₁ e'} (hbody : Expands scope body e alts e₁)
      (hadd : addRepetition scope alts e₁ = .ok (none, e')) :
      Expands scope (.oneOrMore body) e [{}] e'
  | zeroOrMore {body e alts e₁ s e'} (hbody : Expands scope body e alts e₁)
      (hadd : addRepetition scope alts e₁ = .ok (some s, e')) :
      Expands scope (.zeroOrMore body) e [.single s, {}] e'
  | zeroOrMoreNothing {body e alts e₁ e'} (hbody : Expands scope body e alts e₁)
      (hadd : addRepetition scope alts e₁ = .ok (none, e')) :
      Expands scope (.zeroOrMore body) e [{}] e'
  | ranked {body e alts e'} (value : Int32) (assoc : Option Associativity)
      (hbody : Expands scope body e alts e') :
      Expands scope (.ranked value assoc body) e (alts.map (.rank ⟨value, assoc⟩)) e'
  | weighted {body e alts e'} (value : Int32) (hbody : Expands scope body e alts e') :
      Expands scope (.weighted value body) e (alts.map (.weigh value)) e'
  | field {body e alts e'} (name : String) (hbody : Expands scope body e alts e') :
      Expands scope (.field name body) e (alts.map (.label (scope.fieldId name))) e'

/-- The sequence expands to these alternatives behind the given ones. -/
inductive ExpandsSeq (scope : ExpansionScope) :
    List Alternative → List Rule → Expansion → List Alternative → Expansion → Prop where
  | nil {before e} : ExpandsSeq scope before [] e before e
  | cons {before item items e alts e₁ all e'} (hitem : Expands scope item e alts e₁)
      (hitems : ExpandsSeq scope (Alternative.product before alts) items e₁ all e') :
      ExpandsSeq scope before (item :: items) e all e'

/-- The choice expands to these alternatives. -/
inductive ExpandsChoice (scope : ExpansionScope) :
    List Rule → Expansion → List Alternative → Expansion → Prop where
  | nil {e} : ExpandsChoice scope [] e [] e
  | cons {item items e alts e₁ rest e'} (hitem : Expands scope item e alts e₁)
      (hitems : ExpandsChoice scope items e₁ rest e') :
      ExpandsChoice scope (item :: items) e (alts ++ rest) e'

end

variable {scope : ExpansionScope} {e e' : Expansion} {alts : List Alternative}

theorem expands_token {body : Rule} (h : expand scope (.token body) e = .ok (alts, e')) :
    Expands scope (.token body) e alts e' := by
  have hpattern : (do return [Alternative.single (scope.patternSymbol
        (← liftM (tokenSource scope.rule body)))] : Expand (List Alternative)) e = .ok (alts, e') →
      (∀ text, body ≠ .literal text) → Expands scope (.token body) e alts e' := by
    intro h hbody
    obtain ⟨⟨source, e₁⟩, hlift, h⟩ := exists_of_bind_eq_ok h
    obtain ⟨_, hsource, hlift⟩ := exists_of_bind_eq_ok hlift
    cases hlift
    cases h
    exact .token hbody hsource
  cases body with
  | literal text =>
      cases h
      exact .tokenLiteral text
  | _ => exact hpattern h fun _ heq => by cases heq

mutual

theorem expands_of_expand {e e' : Expansion} {alts : List Alternative} :
    (rule : Rule) → expand scope rule e = .ok (alts, e') → Expands scope rule e alts e'
  | .blank, h => by
      cases h
      exact .blank
  | .literal text, h => by
      cases h
      exact .literal text
  | .pattern source, h => by
      cases h
      exact .pattern source
  | .token body, h => expands_token h
  | .symbol name, h => by
      rw [expand] at h
      cases hname : scope.names[name]? with
      | none =>
          rw [hname] at h
          cases h
      | some s =>
          rw [hname] at h
          cases h
          exact .symbol hname
  | .seq items, h => .seq (expandsSeq_of_expandSeq items h)
  | .choice items, h => .choice (expandsChoice_of_expandChoice items h)
  | .optional body, h => by
      rw [expand] at h
      obtain ⟨⟨found, e₁⟩, hbody, h⟩ := exists_of_bind_eq_ok h
      cases h
      exact .optional (expands_of_expand body hbody)
  | .oneOrMore body, h => by
      rw [expand] at h
      obtain ⟨⟨found, e₁⟩, hbody, h⟩ := exists_of_bind_eq_ok h
      obtain ⟨⟨result, e₂⟩, hadd, h⟩ := exists_of_bind_eq_ok h
      cases result with
      | none =>
          cases h
          exact .oneOrMoreNothing (expands_of_expand body hbody) hadd
      | some s =>
          cases h
          exact .oneOrMore (expands_of_expand body hbody) hadd
  | .zeroOrMore body, h => by
      rw [expand] at h
      obtain ⟨⟨found, e₁⟩, hbody, h⟩ := exists_of_bind_eq_ok h
      obtain ⟨⟨result, e₂⟩, hadd, h⟩ := exists_of_bind_eq_ok h
      cases result with
      | none =>
          cases h
          exact .zeroOrMoreNothing (expands_of_expand body hbody) hadd
      | some s =>
          cases h
          exact .zeroOrMore (expands_of_expand body hbody) hadd
  | .ranked value assoc body, h => by
      rw [expand] at h
      obtain ⟨⟨found, e₁⟩, hbody, h⟩ := exists_of_bind_eq_ok h
      cases h
      exact .ranked value assoc (expands_of_expand body hbody)
  | .weighted value body, h => by
      rw [expand] at h
      obtain ⟨⟨found, e₁⟩, hbody, h⟩ := exists_of_bind_eq_ok h
      cases h
      exact .weighted value (expands_of_expand body hbody)
  | .field name body, h => by
      rw [expand] at h
      obtain ⟨⟨found, e₁⟩, hbody, h⟩ := exists_of_bind_eq_ok h
      cases h
      exact .field name (expands_of_expand body hbody)

theorem expandsSeq_of_expandSeq {e e' : Expansion} {before alts : List Alternative} :
    (items : List Rule) → expandSeq scope before items e = .ok (alts, e') →
      ExpandsSeq scope before items e alts e'
  | [], h => by
      cases h
      exact .nil
  | item :: items, h => by
      rw [expandSeq] at h
      obtain ⟨⟨found, e₁⟩, hitem, h⟩ := exists_of_bind_eq_ok h
      exact .cons (expands_of_expand item hitem) (expandsSeq_of_expandSeq items h)

theorem expandsChoice_of_expandChoice {e e' : Expansion} {alts : List Alternative} :
    (items : List Rule) → expandChoice scope items e = .ok (alts, e') →
      ExpandsChoice scope items e alts e'
  | [], h => by
      cases h
      exact .nil
  | item :: items, h => by
      rw [expandChoice] at h
      obtain ⟨⟨found, e₁⟩, hitem, h⟩ := exists_of_bind_eq_ok h
      obtain ⟨⟨rest, e₂⟩, hitems, h⟩ := exists_of_bind_eq_ok h
      cases h
      exact .cons (expands_of_expand item hitem) (expandsChoice_of_expandChoice items hitems)

end

/-- A computation goes on from the result of its first step. -/
theorem bind_eq_ok {α β : Type} {x : Expand α} {f : α → Expand β} {a : α} {e₁ : Expansion}
    {r : β × Expansion} (hx : x e = .ok (a, e₁)) (hf : f a e₁ = .ok r) : (x >>= f) e = .ok r := by
  change (x e >>= fun found => f found.1 found.2) = .ok r
  rw [hx]
  exact hf

mutual

theorem Expands.expand_eq_ok {rule : Rule} {e e' : Expansion} {alts : List Alternative} :
    Expands scope rule e alts e' → expand scope rule e = .ok (alts, e')
  | .blank => rfl
  | .literal _ => rfl
  | .pattern _ => rfl
  | .tokenLiteral _ => rfl
  | .token hbody hsource => by
      rw [expand]
      · rw [hsource]
        rfl
      · exact hbody
  | .symbol hname => by
      rw [expand, hname]
      rfl
  | .seq hitems => hitems.expandSeq_eq_ok
  | .choice hitems => hitems.expandChoice_eq_ok
  | .optional hbody => bind_eq_ok hbody.expand_eq_ok rfl
  | .oneOrMore hbody hadd => bind_eq_ok hbody.expand_eq_ok (bind_eq_ok hadd rfl)
  | .oneOrMoreNothing hbody hadd => bind_eq_ok hbody.expand_eq_ok (bind_eq_ok hadd rfl)
  | .zeroOrMore hbody hadd => bind_eq_ok hbody.expand_eq_ok (bind_eq_ok hadd rfl)
  | .zeroOrMoreNothing hbody hadd => bind_eq_ok hbody.expand_eq_ok (bind_eq_ok hadd rfl)
  | .ranked _ _ hbody => bind_eq_ok hbody.expand_eq_ok rfl
  | .weighted _ hbody => bind_eq_ok hbody.expand_eq_ok rfl
  | .field _ hbody => bind_eq_ok hbody.expand_eq_ok rfl

theorem ExpandsSeq.expandSeq_eq_ok {items : List Rule} {before : List Alternative} {e e' : Expansion}
    {alts : List Alternative} :
    ExpandsSeq scope before items e alts e' → expandSeq scope before items e = .ok (alts, e')
  | .nil => rfl
  | .cons hitem hitems => bind_eq_ok hitem.expand_eq_ok hitems.expandSeq_eq_ok

theorem ExpandsChoice.expandChoice_eq_ok {items : List Rule} {e e' : Expansion}
    {alts : List Alternative} :
    ExpandsChoice scope items e alts e' → expandChoice scope items e = .ok (alts, e')
  | .nil => rfl
  | .cons hitem hitems =>
      bind_eq_ok hitem.expand_eq_ok (bind_eq_ok hitems.expandChoice_eq_ok rfl)

end

/-- A relation that holds over whatever repetitions do to the expansion, one after the other. -/
structure Carries (scope : ExpansionScope) (R : Expansion → Expansion → Prop) : Prop where
  refl : ∀ e, R e e
  trans : ∀ {e e' e''}, R e e' → R e' e'' → R e e''
  add : ∀ {alts e e' result}, addRepetition scope alts e = .ok (result, e') → R e e'

section Relates

variable {R : Expansion → Expansion → Prop}

mutual

/-- What every repetition does to the expansion, one after the other, the whole rule does. -/
theorem Expands.relates (hR : Carries scope R) {rule : Rule} {e e' : Expansion}
    {alts : List Alternative} : Expands scope rule e alts e' → R e e'
  | .blank => hR.refl e
  | .literal _ => hR.refl e
  | .pattern _ => hR.refl e
  | .tokenLiteral _ => hR.refl e
  | .token _ _ => hR.refl e
  | .symbol _ => hR.refl e
  | .seq hitems => hitems.relates hR
  | .choice hitems => hitems.relates hR
  | .optional hbody => hbody.relates hR
  | .oneOrMore hbody hadd => hR.trans (hbody.relates hR) (hR.add hadd)
  | .oneOrMoreNothing hbody hadd => hR.trans (hbody.relates hR) (hR.add hadd)
  | .zeroOrMore hbody hadd => hR.trans (hbody.relates hR) (hR.add hadd)
  | .zeroOrMoreNothing hbody hadd => hR.trans (hbody.relates hR) (hR.add hadd)
  | .ranked _ _ hbody => hbody.relates hR
  | .weighted _ hbody => hbody.relates hR
  | .field _ hbody => hbody.relates hR

theorem ExpandsSeq.relates (hR : Carries scope R) {items : List Rule} {before : List Alternative}
    {e e' : Expansion} {alts : List Alternative} : ExpandsSeq scope before items e alts e' → R e e'
  | .nil => hR.refl e
  | .cons hitem hitems => hR.trans (hitem.relates hR) (hitems.relates hR)

theorem ExpandsChoice.relates (hR : Carries scope R) {items : List Rule} {e e' : Expansion}
    {alts : List Alternative} : ExpandsChoice scope items e alts e' → R e e'
  | .nil => hR.refl e
  | .cons hitem hitems => hR.trans (hitem.relates hR) (hitems.relates hR)

end

end Relates

end IncrementalLR
