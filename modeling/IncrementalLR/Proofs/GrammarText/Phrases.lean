import IncrementalLR.Proofs.GrammarText.Notation

/-!
# The phrases of a grammar file

What a phrase reads is of the notation, whatever it tries first. The other way round the order of a
choice matters: a part of the notation is read in front of what may follow it, because an alternative
that is tried earlier fails there. A body contains bodies, behind a parenthesis only, so both
directions go by the number of tokens that are left, and no other phrase contains itself as a body does.
-/

namespace IncrementalLR.GrammarText

/-! ### Combinators -/

namespace Phrase

variable {τ α β : Type} {p p' : Phrase τ α} {q q' : Phrase τ β} {ts rest : List τ} {a : α} {b : β}

theorem select_eq_some_iff {value? : τ → Option α} :
    select value? ts = some (a, rest) ↔ ∃ t, ts = t :: rest ∧ value? t = some a := by
  cases ts with
  | nil => simp [select]
  | cons t ts =>
      simp only [select, Option.map_eq_some_iff, Prod.mk.injEq, List.cons.injEq]
      constructor
      · rintro ⟨_, hvalue, rfl, rfl⟩
        exact ⟨t, ⟨rfl, rfl⟩, hvalue⟩
      · rintro ⟨_, ⟨rfl, rfl⟩, hvalue⟩
        exact ⟨a, hvalue, rfl, rfl⟩

/-- A phrase of a single kind of token. -/
theorem select_eq_some_iff_of {value? : τ → Option α} {t : τ} (h : ∀ t', value? t' = some a ↔ t' = t) :
    select value? ts = some (a, rest) ↔ ts = t :: rest := by
  simp only [select_eq_some_iff, h, exists_eq_right]

theorem just_eq_some_iff [DecidableEq τ] {t : τ} {u : Unit} :
    just t ts = some (u, rest) ↔ ts = t :: rest := by
  simp [just, select_eq_some_iff]

theorem map_eq_some_iff {f : α → β} :
    p.map f ts = some (b, rest) ↔ ∃ a, p ts = some (a, rest) ∧ f a = b := by
  simp [map]

theorem tryMap_eq_some_iff {f : α → Option β} :
    p.tryMap f ts = some (b, rest) ↔ ∃ a, p ts = some (a, rest) ∧ f a = some b := by
  unfold tryMap
  cases p ts with
  | none => simp
  | some r =>
      simp only [Option.map_eq_some_iff, Option.some.injEq, Prod.ext_iff]
      constructor
      · rintro ⟨_, hf, rfl, rfl⟩
        exact ⟨r.1, ⟨rfl, rfl⟩, hf⟩
      · rintro ⟨_, ⟨rfl, rfl⟩, hf⟩
        exact ⟨b, hf, rfl, rfl⟩

theorem andThen_eq_some_iff :
    p.andThen q ts = some ((a, b), rest) ↔
      ∃ middle, p ts = some (a, middle) ∧ q middle = some (b, rest) := by
  unfold andThen
  cases p ts with
  | none => simp
  | some r =>
      obtain ⟨first, middle⟩ := r
      simp only [map_eq_some_iff, Prod.mk.injEq, Option.some.injEq]
      constructor
      · rintro ⟨_, hq, rfl, rfl⟩
        exact ⟨middle, ⟨rfl, rfl⟩, hq⟩
      · rintro ⟨_, ⟨rfl, rfl⟩, hq⟩
        exact ⟨b, hq, rfl, rfl⟩

theorem thenIgnore_eq_some_iff :
    p.thenIgnore q ts = some (a, rest) ↔
      ∃ middle b, p ts = some (a, middle) ∧ q middle = some (b, rest) := by
  simp only [thenIgnore, map_eq_some_iff, Prod.exists, andThen_eq_some_iff]
  constructor
  · rintro ⟨a, b, ⟨middle, hp, hq⟩, rfl⟩
    exact ⟨middle, b, hp, hq⟩
  · rintro ⟨middle, b, hp, hq⟩
    exact ⟨a, b, ⟨middle, hp, hq⟩, rfl⟩

theorem ignoreThen_eq_some_iff :
    p.ignoreThen q ts = some (b, rest) ↔
      ∃ middle a, p ts = some (a, middle) ∧ q middle = some (b, rest) := by
  simp only [ignoreThen, map_eq_some_iff, Prod.exists, andThen_eq_some_iff]
  constructor
  · rintro ⟨a, b, ⟨middle, hp, hq⟩, rfl⟩
    exact ⟨middle, a, hp, hq⟩
  · rintro ⟨middle, a, hp, hq⟩
    exact ⟨a, b, ⟨middle, hp, hq⟩, rfl⟩

theorem delimitedBy_eq_some_iff {opening closing : Phrase τ Unit} :
    p.delimitedBy opening closing ts = some (a, rest) ↔ ∃ inner last,
      opening ts = some ((), inner) ∧ p inner = some (a, last) ∧ closing last = some ((), rest) := by
  simp only [delimitedBy, thenIgnore_eq_some_iff, ignoreThen_eq_some_iff]
  constructor
  · rintro ⟨last, _, ⟨inner, _, hopening, hp⟩, hclosing⟩
    exact ⟨inner, last, hopening, hp, hclosing⟩
  · rintro ⟨inner, last, hopening, hp, hclosing⟩
    exact ⟨last, (), ⟨inner, (), hopening, hp⟩, hclosing⟩

theorem or_eq_some_iff {p p' : Phrase τ α} {r : α × List τ} :
    p.or p' ts = some r ↔ p ts = some r ∨ p ts = none ∧ p' ts = some r := by
  unfold Phrase.or
  cases p ts <;> simp

theorem choice_nil : choice ([] : List (Phrase τ α)) ts = none := rfl

theorem choice_cons {ps : List (Phrase τ α)} : choice (p :: ps) = p.or (choice ps) := rfl

theorem repeated_of_none (h : p ts = none) : p.repeated ts = some ([], ts) := by
  rw [repeated, h]

theorem repeated_of_some {values : List α} {last : List τ} (h : p ts = some (a, rest))
    (hlt : rest.length < ts.length) (hrest : p.repeated rest = some (values, last)) :
    p.repeated ts = some (a :: values, last) := by
  rw [repeated, h]
  simp only [hlt, ↓reduceDIte, hrest, Option.map_some]

/-- What holds where the phrase stops and is kept by each time that it reads something. -/
theorem repeated_induction {motive : List τ → List α → List τ → Prop} (stop : ∀ ts, motive ts [] ts)
    (step : ∀ ts a middle values rest, p ts = some (a, middle) → middle.length < ts.length →
      motive middle values rest → motive ts (a :: values) rest)
    {values : List α} (h : p.repeated ts = some (values, rest)) : motive ts values rest := by
  induction ts using repeated.induct p generalizing values with
  | case1 ts a middle hp hlt ih =>
      rw [repeated, hp] at h
      simp only [hlt, ↓reduceDIte, Option.map_eq_some_iff, Prod.exists, Prod.mk.injEq] at h
      obtain ⟨others, _, hothers, rfl, rfl⟩ := h
      exact step ts a middle others _ hp hlt (ih hothers)
  | case2 ts a middle hp hlt =>
      rw [repeated, hp] at h
      simp only [hlt, ↓reduceDIte] at h
      cases h
      exact stop _
  | case3 ts hp =>
      rw [repeated_of_none hp] at h
      cases h
      exact stop _

theorem separatedBy_eq_some_iff {separator : Phrase τ Unit} {values : List α} :
    p.separatedBy separator ts = some (values, rest) ↔ ∃ a middle others,
      p ts = some (a, middle) ∧ (separator.ignoreThen p).repeated middle = some (others, rest) ∧
        values = a :: others := by
  simp only [separatedBy, map_eq_some_iff, Prod.exists, andThen_eq_some_iff]
  constructor
  · rintro ⟨a, others, ⟨middle, hp, hothers⟩, rfl⟩
    exact ⟨a, middle, others, hp, hothers, rfl⟩
  · rintro ⟨a, middle, others, hp, hothers, rfl⟩
    exact ⟨a, others, ⟨middle, hp, hothers⟩, rfl⟩

/-- All that the phrase reads is a reading of the front of the tokens. -/
def Sound (p : Phrase τ α) (R : List τ → α → Prop) : Prop :=
  ∀ ts value rest, p ts = some (value, rest) → ∃ front, ts = front ++ rest ∧ R front value

theorem Sound.repeated {R : List τ → α → Prop} {S : List τ → List α → Prop} (hp : Sound p R)
    (hnil : S [] [])
    (hcons : ∀ front a back values, R front a → S back values → S (front ++ back) (a :: values)) :
    Sound p.repeated S := by
  intro ts values rest h
  refine repeated_induction (motive := fun ts values rest => ∃ front, ts = front ++ rest ∧
    S front values) (fun ts => ⟨[], rfl, hnil⟩) ?_ h
  rintro ts a _ values rest hread - ⟨back, rfl, hback⟩
  obtain ⟨front, rfl, hfront⟩ := hp _ _ _ hread
  exact ⟨front ++ back, (List.append_assoc ..).symm, hcons front a back values hfront hback⟩

/-- Where a phrase is sound with any sound phrase inside, it is sound inside itself. -/
theorem Sound.recursive {R : List τ → α → Prop} {f : Phrase τ α → Phrase τ α}
    (hf : ∀ p, Sound p R → Sound (f p) R) : Sound (recursive f) R := by
  intro ts
  induction ts using recursive.induct with
  | case1 ts ih =>
      intro value rest h
      rw [Phrase.recursive] at h
      refine hf _ (fun ts' value rest h => ?_) ts value rest h
      split at h
      · rename_i hlt
        exact ih ts' hlt value rest h
      · cases h

/-- The phrase reads each part in front of what may follow it, where there are fewer than `n` tokens from
the first one of the part to the end. -/
def ReadsBelow (n : Nat) (p : Phrase τ α) (R : List τ → α → Prop) (Ends : List τ → Prop) : Prop :=
  ∀ front value rest, R front value → Ends rest → (front ++ rest).length < n →
    p (front ++ rest) = some (value, rest)

/-- Where a phrase reads parts among one token more than the phrase inside, it reads all parts inside
itself. -/
theorem ReadsBelow.recursive {R : List τ → α → Prop} {Ends : List τ → Prop}
    {f : Phrase τ α → Phrase τ α}
    (hf : ∀ n p, ReadsBelow n p R Ends → ReadsBelow (n + 1) (f p) R Ends) (n : Nat) :
    ReadsBelow n (recursive f) R Ends := by
  induction n using Nat.strong_induction_on with
  | _ n ih =>
      intro front value rest hfront hrest hlt
      rw [Phrase.recursive]
      refine hf _ _ ?_ front value rest hfront hrest (Nat.lt_succ_self _)
      intro front' value' rest' hfront' hrest' hlt'
      exact (dif_pos hlt').trans (ih _ hlt front' value' rest' hfront' hrest' hlt')

section Agree

variable {n : Nat}

/-- Both phrases do the same on fewer than `n` tokens. -/
def AgreeBelow (n : Nat) (p p' : Phrase τ α) : Prop := ∀ ts, ts.length < n → p ts = p' ts

theorem map_congr (f : α → β) (h : p ts = p' ts) : p.map f ts = p'.map f ts := by
  rw [map, map, h]

theorem tryMap_congr (f : α → Option β) (h : p ts = p' ts) : p.tryMap f ts = p'.tryMap f ts := by
  rw [tryMap, tryMap, h]

theorem or_congr {r r' : Phrase τ α} (h : p ts = p' ts) (hr : r ts = r' ts) :
    p.or r ts = p'.or r' ts := by
  rw [Phrase.or, Phrase.or, h, hr]

theorem orNot_congr (h : p ts = p' ts) : p.orNot ts = p'.orNot ts := by
  rw [orNot, orNot, h]

theorem andThen_congr (h : p ts = p' ts)
    (hq : ∀ a middle, p ts = some (a, middle) → q middle = q' middle) :
    p.andThen q ts = p'.andThen q' ts := by
  rw [andThen, andThen, ← h]
  cases hread : p ts with
  | none => rfl
  | some r => exact map_congr _ (hq r.1 r.2 hread)

theorem thenIgnore_congr (h : p ts = p' ts) : p.thenIgnore q ts = p'.thenIgnore q ts :=
  map_congr _ (andThen_congr h fun _ _ _ => rfl)

theorem AgreeBelow.repeated (h : AgreeBelow n p p') : AgreeBelow n p.repeated p'.repeated := by
  intro ts hts
  induction ts using Phrase.repeated.induct p with
  | case1 ts a rest hread hlt ih =>
      rw [Phrase.repeated, Phrase.repeated, ← h ts hts, hread]
      simp only [hlt, ↓reduceDIte, ih (hlt.trans hts)]
  | case2 ts a rest hread hlt =>
      rw [Phrase.repeated, Phrase.repeated, ← h ts hts, hread]
      simp only [hlt, ↓reduceDIte]
  | case3 ts hread => rw [repeated_of_none hread, repeated_of_none ((h ts hts).symm.trans hread)]

theorem length_le_of_repeated {values : List α} {rest : List τ}
    (h : p.repeated ts = some (values, rest)) : rest.length ≤ ts.length :=
  repeated_induction (motive := fun ts _ rest => rest.length ≤ ts.length) (fun _ => le_rfl)
    (fun _ _ _ _ _ _ hlt hle => hle.trans hlt.le) h

/-- A phrase whose result depends on the phrase inside on fewer tokens only contains itself in one way. -/
theorem eq_recursive_iff {f : Phrase τ α → Phrase τ α}
    (hf : ∀ n p p', AgreeBelow n p p' → AgreeBelow (n + 1) (f p) (f p')) :
    p = f p ↔ p = recursive f := by
  have hfix : recursive f = f (recursive f) := by
    funext ts
    have hguard : AgreeBelow ts.length
        (fun rest => if _h : rest.length < ts.length then recursive f rest else none) (recursive f) :=
      fun rest hrest => dif_pos hrest
    calc recursive f ts = f _ ts := by rw [recursive]
      _ = f (recursive f) ts := hf _ _ _ hguard ts (Nat.lt_succ_self _)
  constructor
  · intro hp
    funext ts
    induction ts using recursive.induct with
    | case1 ts ih =>
        calc p ts = f p ts := congrFun hp ts
          _ = f (recursive f) ts := hf _ _ _ ih ts (Nat.lt_succ_self _)
          _ = recursive f ts := congrFun hfix.symm ts
  · rintro rfl
    exact hfix

end Agree

end Phrase

open Phrase

/-! ### Parts that a look at the next token settles -/

section Parts

variable {ts : List Token}

theorem orNot_level_eq (ts : List Token) :
    (integer.thenIgnore (just .comma)).orNot ts = some (readLevel ts) := by
  unfold readLevel
  split
  · rfl
  · rename_i hne
    match ts, hne with
    | [], _ => rfl
    | [t], _ => cases t <;> rfl
    | t :: t' :: ts, hne =>
        cases t with
        | int n =>
            cases t' with
            | comma => exact absurd rfl (hne n ts)
            | _ => rfl
        | _ => rfl

theorem repeated_arg_eq (ts : List Token) : arg.repeated ts = some (readArgs ts) := by
  induction ts with
  | nil => exact repeated_of_none rfl
  | cons t ts ih =>
      rw [readArgs]
      split
      · rename_i value hvalue
        have hread : arg (t :: ts) = some (value, ts) := select_eq_some_iff.2 ⟨t, rfl, hvalue⟩
        exact repeated_of_some hread (Nat.lt_succ_self _) ih
      · rename_i hnone
        refine repeated_of_none ?_
        rw [arg, select, hnone, Option.map_none]

/-- The operators in front of the tokens wrap the rule as they are read. -/
theorem exists_of_repeated_postfixOperator (rule : Rule) (ts : List Token) :
    ∃ wraps, postfixOperator.repeated ts = some (wraps, (readOperators rule ts).2) ∧
      wraps.foldl (fun rule wrap => wrap rule) rule = (readOperators rule ts).1 := by
  fun_induction readOperators rule ts with
  | case1 rule ts ih =>
      obtain ⟨wraps, hwraps, hrule⟩ := ih
      exact ⟨.zeroOrMore :: wraps, repeated_of_some rfl (Nat.lt_succ_self _) hwraps, hrule⟩
  | case2 rule ts ih =>
      obtain ⟨wraps, hwraps, hrule⟩ := ih
      exact ⟨.oneOrMore :: wraps, repeated_of_some rfl (Nat.lt_succ_self _) hwraps, hrule⟩
  | case3 rule ts ih =>
      obtain ⟨wraps, hwraps, hrule⟩ := ih
      exact ⟨.optional :: wraps, repeated_of_some rfl (Nat.lt_succ_self _) hwraps, hrule⟩
  | case4 rule ts hstar hplus hquestion =>
      refine ⟨[], repeated_of_none ?_, rfl⟩
      cases ts with
      | nil => rfl
      | cons t ts =>
          cases t with
          | star => exact absurd rfl (hstar ts)
          | plus => exact absurd rfl (hplus ts)
          | question => exact absurd rfl (hquestion ts)
          | _ => rfl

theorem postfixed_eq (p : Phrase Token Rule) (ts : List Token) :
    postfixed p ts = (atom p ts).map fun r => readOperators r.1 r.2 := by
  unfold postfixed Phrase.foldl Phrase.map andThen
  cases atom p ts with
  | none => rfl
  | some r =>
      obtain ⟨wraps, hwraps, hrule⟩ := exists_of_repeated_postfixOperator r.1 r.2
      simp only [Phrase.map, hwraps, Option.map_some, hrule]

end Parts

/-! ### What is read is of the notation -/

section Sound

variable {p : Phrase Token Rule}

theorem orNot_sound (hp : Sound p IsBody) :
    Sound p.orNot fun front body => IsBody front (body.getD .blank) := by
  intro ts body rest h
  unfold orNot at h
  split at h
  · rename_i rule last hread
    cases h
    exact hp _ _ _ hread
  · cases h
    exact ⟨[], rfl, .mk [] _ _ (.last [] [] _ .nil .none) (.one _)⟩

theorem Builtin.apply_getD (builtin : Builtin) (level : Option Int) (body : Option Rule) :
    builtin.apply level (some (body.getD .blank)) = builtin.apply level body := by
  cases body with
  | none => cases builtin <;> cases level <;> rfl
  | some body => rfl

theorem builtinName_eq_some_iff {ts rest : List Token} {builtin : Builtin} :
    builtinName ts = some (builtin, rest) ↔
      ∃ name, ts = .ident name :: rest ∧ Builtin.ofName? name = some builtin := by
  rw [builtinName, select_eq_some_iff]
  constructor
  · rintro ⟨t, rfl, ht⟩
    cases t with
    | ident name => exact ⟨name, rfl, ht⟩
    | _ => cases ht
  · rintro ⟨name, rfl, hname⟩
    exact ⟨.ident name, rfl, hname⟩

theorem ident_eq_some_iff {ts rest : List Token} {name : String} :
    ident ts = some (name, rest) ↔ ts = .ident name :: rest := by
  refine select_eq_some_iff_of fun t => ?_
  cases t <;> simp

theorem call_sound (hp : Sound p IsBody) : Sound (call p) IsAtom := by
  intro ts rule rest h
  simp only [call, tryMap_eq_some_iff, thenIgnore_eq_some_iff, Prod.exists, andThen_eq_some_iff,
    just_eq_some_iff, orNot_level_eq, builtinName_eq_some_iff, Option.some.injEq] at h
  obtain ⟨builtin, level, body, ⟨_, _, ⟨_, ⟨inside, ⟨_, _, ⟨name, rfl, hname⟩, rfl⟩, hlevel⟩, hread⟩,
    rfl⟩, happly⟩ := h
  obtain ⟨front, rfl, hbody⟩ := orNot_sound hp _ _ _ hread
  have hcall := (Builtin.apply_eq_some_iff hname).1 ((Builtin.apply_getD builtin level body).trans happly)
  refine ⟨.ident name :: .lparen :: (levelTokens level ++ (front ++ [.rparen])), ?_,
    .call name level front _ rule hbody hcall⟩
  rw [readLevel_spec inside, hlevel]
  simp

theorem group_sound (hp : Sound p IsBody) : Sound (group p) IsAtom := by
  intro ts rule rest h
  simp only [group, delimitedBy_eq_some_iff, just_eq_some_iff] at h
  obtain ⟨_, _, rfl, hread, rfl⟩ := h
  obtain ⟨front, rfl, hbody⟩ := hp _ _ _ hread
  exact ⟨.lparen :: (front ++ [.rparen]), by simp, .group front rule hbody⟩

theorem plainAtom_sound : Sound plainAtom IsAtom := by
  intro ts rule rest h
  obtain ⟨t, rfl, ht⟩ := select_eq_some_iff.1 h
  refine ⟨[t], rfl, ?_⟩
  cases t with
  | str text =>
      cases ht
      exact .literal text
  | regex source =>
      cases ht
      exact .pattern source
  | ident name =>
      simp only [Option.ite_none_right_eq_some, Option.some.injEq] at ht
      obtain ⟨hname, rfl⟩ := ht
      exact .name name (Builtin.ofName?_eq_none_iff.1 hname)
  | _ => cases ht

theorem atom_eq_some_iff {ts : List Token} {r : Rule × List Token} :
    atom p ts = some r ↔ call p ts = some r ∨ call p ts = none ∧
      (group p ts = some r ∨ group p ts = none ∧ plainAtom ts = some r) := by
  simp only [atom, choice_cons, or_eq_some_iff, choice_nil, reduceCtorEq, and_false, or_false]

theorem atom_sound (hp : Sound p IsBody) : Sound (atom p) IsAtom := by
  intro ts rule rest h
  rcases atom_eq_some_iff.1 h with h | ⟨-, h | ⟨-, h⟩⟩
  · exact call_sound hp ts rule rest h
  · exact group_sound hp ts rule rest h
  · exact plainAtom_sound ts rule rest h

theorem postfixed_sound (hp : Sound p IsBody) : Sound (postfixed p) IsPostfix := by
  intro ts rule rest h
  rw [postfixed_eq, Option.map_eq_some_iff] at h
  obtain ⟨⟨inner, behind⟩, hatom, hends⟩ := h
  obtain ⟨front, rfl, hfront⟩ := atom_sound hp _ _ _ hatom
  obtain ⟨operators, hbehind, hrule⟩ := exists_of_readOperators inner behind
  simp only [hends] at hbehind hrule
  subst hbehind hrule
  exact ⟨front ++ operators.map (·.token), (List.append_assoc ..).symm, .mk front inner operators hfront⟩

theorem element_sound (hp : Sound p IsBody) : Sound (element p) IsElement := by
  intro ts rule rest h
  simp only [element, or_eq_some_iff, map_eq_some_iff, Prod.exists, andThen_eq_some_iff,
    thenIgnore_eq_some_iff, ident_eq_some_iff, just_eq_some_iff] at h
  rcases h with ⟨name, inner, ⟨_, ⟨_, _, rfl, rfl⟩, hread⟩, rfl⟩ | ⟨-, hread⟩
  · obtain ⟨front, rfl, hfront⟩ := postfixed_sound hp _ _ _ hread
    exact ⟨.ident name :: .colon :: front, rfl, .field name front inner hfront⟩
  · obtain ⟨front, rfl, hfront⟩ := postfixed_sound hp _ _ _ hread
    exact ⟨front, rfl, .plain front rule hfront⟩

/-- Elements one behind the other, with their rule. -/
def IsAlternative (ts : List Token) (rule : Rule) : Prop :=
  ∃ parts, IsElements ts parts ∧ IsSequence parts rule

theorem sequence_sound (hp : Sound p IsBody) : Sound (sequence p) IsAlternative := by
  intro ts rule rest h
  obtain ⟨parts, hread, rfl⟩ := map_eq_some_iff.1 h
  obtain ⟨front, rfl, hfront⟩ := (element_sound hp).repeated (S := IsElements) .nil
    (fun front rule back rules => .cons front back rule rules) _ _ _ hread
  exact ⟨front, rfl, parts, hfront, isSequence_iff.2 rfl⟩

/-- The alternatives behind the first one, each with the bar in front of it. -/
def IsOthers (ts : List Token) (rules : List Rule) : Prop :=
  ts = [] ∧ rules = [] ∨ ∃ ts', ts = .pipe :: ts' ∧ IsAlternatives ts' rules

theorem isAlternatives_cons_iff {ts : List Token} {rule : Rule} {rules : List Rule} :
    IsAlternatives ts (rule :: rules) ↔
      ∃ front back, ts = front ++ back ∧ IsAlternative front rule ∧ IsOthers back rules := by
  constructor
  · rintro (⟨_, parts, _, h, hrule⟩ | ⟨front, back, parts, _, _, h, hrule, hrest⟩)
    · exact ⟨ts, [], (List.append_nil ts).symm, ⟨parts, h, hrule⟩, .inl ⟨rfl, rfl⟩⟩
    · exact ⟨front, .pipe :: back, rfl, ⟨parts, h, hrule⟩, .inr ⟨back, rfl, hrest⟩⟩
  · rintro ⟨front, _, rfl, ⟨parts, h, hrule⟩, ⟨rfl, rfl⟩ | ⟨back, rfl, hrest⟩⟩
    · rw [List.append_nil]
      exact .last front parts rule h hrule
    · exact .bar front back parts rules rule h hrule hrest

theorem others_sound (hp : Sound p IsBody) :
    Sound ((just .pipe).ignoreThen (sequence p)).repeated IsOthers := by
  have hbar : Sound ((just .pipe).ignoreThen (sequence p)) fun front rule =>
      ∃ front', front = .pipe :: front' ∧ IsAlternative front' rule := by
    intro ts rule rest h
    simp only [ignoreThen_eq_some_iff, just_eq_some_iff] at h
    obtain ⟨_, _, rfl, hread⟩ := h
    obtain ⟨front, rfl, hfront⟩ := sequence_sound hp _ _ _ hread
    exact ⟨.pipe :: front, rfl, front, rfl, hfront⟩
  refine hbar.repeated (.inl ⟨rfl, rfl⟩) ?_
  rintro _ rule back rules ⟨front, rfl, hfront⟩ hback
  exact .inr ⟨front ++ back, rfl, isAlternatives_cons_iff.2 ⟨front, back, rfl, hfront, hback⟩⟩

theorem bodyOver_sound (hp : Sound p IsBody) : Sound (bodyOver p) IsBody := by
  intro ts rule rest h
  simp only [bodyOver, map_eq_some_iff, separatedBy_eq_some_iff] at h
  obtain ⟨_, ⟨first, behind, others, hfirst, hothers, rfl⟩, rfl⟩ := h
  obtain ⟨front, rfl, hfront⟩ := sequence_sound hp _ _ _ hfirst
  obtain ⟨back, rfl, hback⟩ := others_sound hp _ _ _ hothers
  exact ⟨front ++ back, (List.append_assoc ..).symm,
    isBody_iff.2 ⟨_, isAlternatives_cons_iff.2 ⟨front, back, rfl, hfront, hback⟩, rfl⟩⟩

theorem body_sound : Sound body IsBody := .recursive fun _ => bodyOver_sound

theorem directiveName_eq_some_iff {ts rest : List Token} {name : String} :
    directiveName ts = some (name, rest) ↔ ts = .directive name :: rest := by
  refine select_eq_some_iff_of fun t => ?_
  cases t <;> simp

theorem readArgs_eq_iff {ts rest : List Token} {args : List Arg} :
    readArgs ts = (args, .semi :: rest) ↔ ts = args.map (·.token) ++ .semi :: rest := by
  constructor
  · intro h
    have hspec := readArgs_spec ts
    rwa [h] at hspec
  · rintro rfl
    exact readArgs_append args rest

theorem directive_eq_some_iff {ts rest : List Token} {item : Item} :
    directive ts = some (item, rest) ↔ ∃ (name : String) (args : List Arg),
      ts = .directive name :: (args.map (·.token) ++ .semi :: rest) ∧
        item = .directive name args (args.length + rest.length + 2) := by
  simp only [directive, map_eq_some_iff, Prod.exists, thenIgnore_eq_some_iff, andThen_eq_some_iff,
    withRemaining, directiveName_eq_some_iff, just_eq_some_iff, repeated_arg_eq, Option.some.injEq]
  have hlength (name : String) (args : List Arg) :
      (Token.directive name :: (args.map (·.token) ++ .semi :: rest)).length
        = args.length + rest.length + 2 := by
    simp only [List.length_cons, List.length_append, List.length_map]
    omega
  constructor
  · rintro ⟨name, _, args, ⟨_, _, ⟨_, ⟨_, rfl, hboth⟩, hargs⟩, rfl⟩, rfl⟩
    obtain rfl := readArgs_eq_iff.1 hargs
    obtain ⟨rfl, rfl⟩ := Prod.mk.inj hboth
    exact ⟨_, args, rfl, by rw [hlength]⟩
  · rintro ⟨name, args, rfl, rfl⟩
    exact ⟨name, _, args, ⟨_, (), ⟨_, ⟨name, rfl, rfl⟩, readArgs_eq_iff.2 rfl⟩, rfl⟩, by rw [hlength]⟩

theorem rule_sound {ts rest : List Token} {item : Item} (h : rule ts = some (item, rest)) :
    ∃ (name : String) (front : List Token) (inner : Rule),
      ts = .ident name :: .arrow :: (front ++ .semi :: rest) ∧ IsBody front inner ∧
        item = .rule name inner := by
  simp only [rule, map_eq_some_iff, Prod.exists, thenIgnore_eq_some_iff, andThen_eq_some_iff,
    ident_eq_some_iff, just_eq_some_iff] at h
  obtain ⟨name, inner, ⟨_, _, ⟨_, ⟨_, _, rfl, rfl⟩, hread⟩, rfl⟩, rfl⟩ := h
  obtain ⟨front, rfl, hbody⟩ := body_sound _ _ _ hread
  exact ⟨name, front, inner, rfl, hbody, rfl⟩

theorem declares_of_item {ts rest : List Token} {item : Item} {items : List Item}
    (h : choice [directive, rule] ts = some (item, rest)) (hrest : Declares rest items) :
    Declares ts (item :: items) := by
  simp only [choice_cons, or_eq_some_iff, choice_nil] at h
  rcases h with h | ⟨-, h | ⟨-, h⟩⟩
  · obtain ⟨name, args, rfl, rfl⟩ := directive_eq_some_iff.1 h
    exact .directive name args rest items hrest
  · obtain ⟨name, front, inner, rfl, hbody, rfl⟩ := rule_sound h
    exact .rule name front rest inner items hbody hrest
  · cases h

/-- The declarations that are read are those of the notation. -/
theorem declares_of_declarations? {ts : List Token} {items : List Item}
    (h : declarations? ts = some items) : Declares ts items := by
  simp only [declarations?, Option.map_eq_some_iff, Prod.exists, declarations,
    thenIgnore_eq_some_iff] at h
  obtain ⟨_, _, ⟨middle, _, hread, hending⟩, rfl⟩ := h
  obtain rfl : middle = [] := by
    cases middle with
    | nil => rfl
    | cons => cases hending
  refine repeated_induction (motive := fun ts items rest => rest = [] → Declares ts items) ?_ ?_
    hread rfl
  · rintro ts rfl
    exact .nil
  · intro ts item middle items rest hitem _ ih hrest
    exact declares_of_item hitem (ih hrest)

end Sound

/-! ### Bodies inside bodies -/

section Guard

variable {n : Nat} {p q : Phrase Token Rule}

theorem call_agreeBelow (h : AgreeBelow n p q) : AgreeBelow (n + 1) (call p) (call q) := by
  intro ts hts
  refine tryMap_congr _ (thenIgnore_congr (andThen_congr rfl ?_))
  rintro ⟨builtin, level⟩ middle hread
  simp only [andThen_eq_some_iff, thenIgnore_eq_some_iff, just_eq_some_iff, orNot_level_eq,
    builtinName_eq_some_iff, Option.some.injEq] at hread
  obtain ⟨inside, ⟨_, _, ⟨name, rfl, -⟩, rfl⟩, hlevel⟩ := hread
  have hlength := congrArg List.length (readLevel_spec inside)
  rw [hlevel, List.length_append] at hlength
  simp only [List.length_cons] at hts hlength
  exact orNot_congr (h middle (by omega))

theorem group_agreeBelow (h : AgreeBelow n p q) : AgreeBelow (n + 1) (group p) (group q) := by
  intro ts hts
  refine thenIgnore_congr (map_congr _ (andThen_congr rfl fun _ middle hread => h middle ?_))
  rw [just_eq_some_iff.1 hread, List.length_cons] at hts
  omega

theorem postfixed_agreeBelow (h : AgreeBelow n p q) : AgreeBelow (n + 1) (postfixed p) (postfixed q) := by
  intro ts hts
  have hatom : atom p ts = atom q ts :=
    or_congr (call_agreeBelow h ts hts) (or_congr (group_agreeBelow h ts hts) rfl)
  rw [postfixed_eq, postfixed_eq, hatom]

theorem sequence_agreeBelow (h : AgreeBelow n p q) : AgreeBelow (n + 1) (sequence p) (sequence q) := by
  have helement : AgreeBelow (n + 1) (element p) (element q) := by
    intro ts hts
    refine or_congr (map_congr _ (andThen_congr rfl fun name middle hread => ?_))
      (postfixed_agreeBelow h ts hts)
    obtain ⟨_, _, hident, hcolon⟩ := thenIgnore_eq_some_iff.1 hread
    rw [ident_eq_some_iff.1 hident, just_eq_some_iff.1 hcolon] at hts
    simp only [List.length_cons] at hts
    exact postfixed_agreeBelow h middle (by omega)
  exact fun ts hts => map_congr _ (helement.repeated ts hts)

theorem bodyOver_agreeBelow (h : AgreeBelow n p q) : AgreeBelow (n + 1) (bodyOver p) (bodyOver q) := by
  have hbar : AgreeBelow (n + 1) ((just .pipe).ignoreThen (sequence p))
      ((just .pipe).ignoreThen (sequence q)) := by
    intro ts hts
    refine map_congr _ (andThen_congr rfl fun _ middle hread => sequence_agreeBelow h middle ?_)
    rw [just_eq_some_iff.1 hread, List.length_cons] at hts
    omega
  intro ts hts
  refine map_congr _ (map_congr _ (andThen_congr (sequence_agreeBelow h ts hts) ?_))
  intro rule middle hread
  obtain ⟨_, hparts, -⟩ := map_eq_some_iff.1 hread
  exact hbar.repeated middle ((length_le_of_repeated hparts).trans_lt hts)

/-- The phrase of a body is the only one that contains itself in this way. -/
theorem eq_bodyOver_iff : p = bodyOver p ↔ p = body :=
  eq_recursive_iff fun _ _ _ => bodyOver_agreeBelow

end Guard

/-! ### What is of the notation is read -/

section Reads

variable {n : Nat} {p : Phrase Token Rule}

theorem element_eq_none {ts : List Token} (h : startsElement ts = false) : element p ts = none := by
  cases ts with
  | nil => rfl
  | cons t ts =>
      cases t with
      | ident | str | regex | lparen => cases h
      | _ => rfl

theorem call_eq_none {name : String} (hname : Builtin.ofName? name = none) (rest : List Token) :
    call p (.ident name :: rest) = none := by
  simp [call, tryMap, thenIgnore, andThen, Phrase.map, builtinName, select, hname]

theorem call_reads (hp : ReadsBelow n p IsBody EndsBody) {name : String} {level : Option Int}
    {front rest : List Token} {inner rule : Rule} (hbody : IsBody front inner)
    (hcall : IsCall name level inner rule) (hlt : (front ++ .rparen :: rest).length < n) :
    call p (.ident name :: .lparen :: (levelTokens level ++ (front ++ .rparen :: rest)))
      = some (rule, rest) := by
  obtain ⟨builtin, hname⟩ := Option.ne_none_iff_exists'.1
    (mt Builtin.ofName?_eq_none_iff.1 (not_not_intro hcall.mem_builtinNames))
  obtain ⟨rules, hrules, rfl⟩ := isBody_iff.1 hbody
  have hread := hp front _ (.rparen :: rest) hbody endsBody_rparen hlt
  have hor : p.orNot (front ++ .rparen :: rest) = some (some (choiceRule rules), .rparen :: rest) := by
    rw [orNot, hread]
  simp only [call, tryMap_eq_some_iff, thenIgnore_eq_some_iff, Prod.exists, andThen_eq_some_iff,
    just_eq_some_iff, orNot_level_eq, builtinName_eq_some_iff, Option.some.injEq]
  exact ⟨builtin, level, some (choiceRule rules), ⟨_, (), ⟨_, ⟨_, ⟨_, (), ⟨name, rfl, hname⟩, rfl⟩,
    readLevel_append hrules level rest⟩, hor⟩, rfl⟩, (Builtin.apply_eq_some_iff hname).2 hcall⟩

theorem group_reads (hp : ReadsBelow n p IsBody EndsBody) {front rest : List Token} {rule : Rule}
    (hbody : IsBody front rule) (hlt : (front ++ .rparen :: rest).length < n) :
    group p (.lparen :: (front ++ .rparen :: rest)) = some (rule, rest) :=
  delimitedBy_eq_some_iff.2 ⟨_, _, just_eq_some_iff.2 rfl,
    hp front rule _ hbody endsBody_rparen hlt, just_eq_some_iff.2 rfl⟩

theorem atom_reads (hp : ReadsBelow n p IsBody EndsBody) :
    ReadsBelow (n + 1) (atom p) IsAtom fun _ => True := by
  intro front rule rest hfront _ hlt
  cases hfront with
  | literal | pattern => rfl
  | name name hname =>
      have hnone := Builtin.ofName?_eq_none_iff.2 hname
      refine atom_eq_some_iff.2 (.inr ⟨call_eq_none hnone rest, .inr ⟨rfl, ?_⟩⟩)
      exact select_eq_some_iff.2 ⟨.ident name, rfl, if_pos hnone⟩
  | group ts rule hbody =>
      simp only [List.cons_append, List.append_assoc, List.nil_append, List.length_cons] at hlt ⊢
      exact atom_eq_some_iff.2 (.inr ⟨rfl, .inl (group_reads hp hbody (by omega))⟩)
  | call name level ts inner rule hbody hcall =>
      simp only [List.cons_append, List.append_assoc, List.nil_append, List.length_cons,
        List.length_append] at hlt ⊢
      refine atom_eq_some_iff.2 (.inl (call_reads hp hbody hcall ?_))
      simp only [List.length_append, List.length_cons]
      omega

theorem postfixed_reads (hp : ReadsBelow n p IsBody EndsBody) :
    ReadsBelow (n + 1) (postfixed p) IsPostfix EndsElement := by
  rintro _ _ rest ⟨front, rule, operators, hatom⟩ hrest hlt
  rw [List.append_assoc] at hlt ⊢
  rw [postfixed_eq, atom_reads hp front rule _ hatom trivial hlt, Option.map_some,
    readOperators_append rule operators hrest]

theorem element_reads (hp : ReadsBelow n p IsBody EndsBody) :
    ReadsBelow (n + 1) (element p) IsElement EndsElement := by
  intro front rule rest hfront hrest hlt
  rw [element, or_eq_some_iff]
  cases hfront with
  | plain front rule hfront =>
      refine .inr ⟨?_, postfixed_reads hp front rule rest hfront hrest hlt⟩
      -- the label is tried first and fails: no colon follows a name that is an atom
      rw [Option.eq_none_iff_forall_ne_some]
      rintro ⟨_, behind⟩ hread
      simp only [map_eq_some_iff, Prod.exists, andThen_eq_some_iff, thenIgnore_eq_some_iff,
        ident_eq_some_iff, just_eq_some_iff] at hread
      obtain ⟨name, _, ⟨middle, ⟨_, _, hts, rfl⟩, -⟩, -⟩ := hread
      exact hfront.ne_field hrest name middle hts
  | field name front rule hfront =>
      simp only [List.cons_append, List.length_cons] at hlt ⊢
      refine .inl (map_eq_some_iff.2 ⟨(name, rule), andThen_eq_some_iff.2 ⟨front ++ rest, ?_, ?_⟩, rfl⟩)
      · exact thenIgnore_eq_some_iff.2 ⟨_, (), ident_eq_some_iff.2 rfl, just_eq_some_iff.2 rfl⟩
      · exact postfixed_reads hp front rule rest hfront hrest (by omega)

theorem repeated_element_reads (hp : ReadsBelow n p IsBody EndsBody) :
    ReadsBelow (n + 1) (element p).repeated IsElements EndsSequence := by
  intro front parts rest hfront hrest hlt
  induction parts generalizing front with
  | nil =>
      cases hfront
      exact repeated_of_none (element_eq_none hrest.startsElement)
  | cons part parts ih =>
      obtain _ | ⟨front, back, _, _, hfront, hback⟩ := hfront
      have hpos := hfront.length_pos
      have hends : EndsElement (back ++ rest) := by
        cases hback with
        | nil => exact hrest.endsElement
        | cons next last rule rules hnext _ =>
            rw [List.append_assoc]
            exact endsElement_of_startsElement (hnext.startsElement _)
      rw [List.append_assoc, List.length_append] at hlt
      rw [List.append_assoc]
      refine repeated_of_some (element_reads hp front part _ hfront hends ?_) ?_ (ih back hback ?_)
      all_goals simp only [List.length_append] at hlt ⊢; omega

theorem sequence_reads (hp : ReadsBelow n p IsBody EndsBody) :
    ReadsBelow (n + 1) (sequence p) IsAlternative EndsSequence := by
  rintro front rule rest ⟨parts, hparts, hrule⟩ hrest hlt
  obtain rfl := isSequence_iff.1 hrule
  exact map_eq_some_iff.2 ⟨parts, repeated_element_reads hp front parts rest hparts hrest hlt, rfl⟩

theorem IsOthers.endsSequence {back rest : List Token} {rules : List Rule} (h : IsOthers back rules)
    (hrest : EndsBody rest) : EndsSequence (back ++ rest) := by
  rcases h with ⟨rfl, -⟩ | ⟨back, rfl, -⟩
  · exact hrest.endsSequence
  · exact endsSequence_pipe

theorem others_reads (hp : ReadsBelow n p IsBody EndsBody) :
    ReadsBelow (n + 1) ((just .pipe).ignoreThen (sequence p)).repeated IsOthers EndsBody := by
  intro front rules rest hfront hrest hlt
  induction rules generalizing front with
  | nil =>
      obtain ⟨rfl, -⟩ | ⟨_, -, hrules⟩ := hfront
      · refine repeated_of_none (Option.eq_none_iff_forall_ne_some.2 ?_)
        rintro ⟨rule, behind⟩ hread
        obtain ⟨_, _, hpipe, -⟩ := ignoreThen_eq_some_iff.1 hread
        rw [List.nil_append, just_eq_some_iff] at hpipe
        rcases hrest .pipe (by rw [hpipe]; rfl) with h | h <;> cases h
      · exact absurd rfl hrules.ne_nil
  | cons rule rules ih =>
      obtain ⟨-, hrules⟩ | ⟨_, rfl, hrules⟩ := hfront
      · cases hrules
      · obtain ⟨front, back, rfl, hfront, hback⟩ := isAlternatives_cons_iff.1 hrules
        simp only [List.cons_append, List.append_assoc, List.length_cons, List.length_append] at hlt ⊢
        refine repeated_of_some (ignoreThen_eq_some_iff.2 ⟨_, (), just_eq_some_iff.2 rfl,
          sequence_reads hp front rule _ hfront (hback.endsSequence hrest) ?_⟩) ?_ (ih back hback ?_)
        all_goals simp only [List.length_append, List.length_cons]; omega

theorem bodyOver_reads (hp : ReadsBelow n p IsBody EndsBody) :
    ReadsBelow (n + 1) (bodyOver p) IsBody EndsBody := by
  intro front rule rest hfront hrest hlt
  obtain ⟨rules, hrules, rfl⟩ := isBody_iff.1 hfront
  cases rules with
  | nil => exact absurd rfl hrules.ne_nil
  | cons first others =>
      obtain ⟨front, back, rfl, hfirst, hothers⟩ := isAlternatives_cons_iff.1 hrules
      rw [List.append_assoc] at hlt ⊢
      have hread := sequence_reads hp front first _ hfirst (hothers.endsSequence hrest) hlt
      rw [List.length_append] at hlt
      exact map_eq_some_iff.2 ⟨_, separatedBy_eq_some_iff.2 ⟨first, _, others, hread,
        others_reads hp back others rest hothers hrest (by omega), rfl⟩, rfl⟩

theorem body_reads {front rest : List Token} {rule : Rule} (h : IsBody front rule)
    (hrest : EndsBody rest) : body (front ++ rest) = some (rule, rest) :=
  ReadsBelow.recursive (fun _ _ => bodyOver_reads) _ front rule rest h hrest (Nat.lt_succ_self _)

theorem rule_reads (name : String) {front : List Token} {inner : Rule} (h : IsBody front inner)
    (rest : List Token) :
    rule (.ident name :: .arrow :: (front ++ .semi :: rest)) = some (.rule name inner, rest) := by
  simp only [rule, map_eq_some_iff, Prod.exists, thenIgnore_eq_some_iff, andThen_eq_some_iff,
    ident_eq_some_iff, just_eq_some_iff]
  exact ⟨name, inner, ⟨_, (), ⟨_, ⟨_, (), rfl, rfl⟩, body_reads h endsBody_semi⟩, rfl⟩, rfl⟩

/-- All declarations of the notation are read. -/
theorem declarations?_of_declares {ts : List Token} {items : List Item} (h : Declares ts items) :
    declarations? ts = some items := by
  have hread : (choice [directive, rule]).repeated ts = some (items, []) := by
    induction h with
    | nil => exact repeated_of_none rfl
    | rule name front rest inner items hbody _ ih =>
        refine repeated_of_some (or_eq_some_iff.2 (.inr ⟨rfl, or_eq_some_iff.2 (.inl ?_)⟩)) ?_ ih
        · exact rule_reads name hbody rest
        · simp only [List.length_cons, List.length_append]
          omega
    | directive name args rest items _ ih =>
        refine repeated_of_some (or_eq_some_iff.2 (.inl ?_)) ?_ ih
        · exact directive_eq_some_iff.2 ⟨name, args, rfl, rfl⟩
        · simp only [List.length_cons, List.length_append]
          omega
  rw [declarations?, declarations, thenIgnore_eq_some_iff.2 ⟨[], (), hread, rfl⟩, Option.map_some]

end Reads

/-! ### Files -/

/-- A file is read exactly where its tokens are of the notation, and they can be read in one way at
most. -/
theorem declarations?_eq_some_iff (ts : List Token) :
    (∀ items, declarations? ts = some items ↔ Declares ts items) ∧
      { items | Declares ts items }.Subsingleton := by
  have hiff : ∀ items, declarations? ts = some items ↔ Declares ts items := fun _ =>
    ⟨declares_of_declarations?, declarations?_of_declares⟩
  refine ⟨hiff, fun items h items' h' => ?_⟩
  exact Option.some.inj (((hiff items).2 h).symm.trans ((hiff items').2 h'))

/-- The phrases read just what the reader that finds the errors reads. -/
theorem declarations?_eq_toOption (ts : List Token) :
    declarations? ts = (readItems (ts.length + 1) ts).toOption := by
  apply Option.ext
  intro items
  calc declarations? ts = some items
      ↔ Declares ts items := ⟨declares_of_declarations?, declarations?_of_declares⟩
    _ ↔ readItems (ts.length + 1) ts = .ok items := ((readItems_eq_ok_iff ts).1 items).symm
    _ ↔ (readItems (ts.length + 1) ts).toOption = some items := by
        cases readItems (ts.length + 1) ts <;> simp [Except.toOption]

end IncrementalLR.GrammarText
