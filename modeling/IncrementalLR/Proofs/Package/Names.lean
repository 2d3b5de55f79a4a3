import Mathlib
import IncrementalLR.Package.Names
import IncrementalLR.Proofs.Collections

/-!
# Names of variants

Every variant has a name of ASCII letters and digits that starts with a capital, and is no reserved
word. A name that is taken gets the number of its symbol, but nothing looks whether it is taken then
as well: the names are distinct exactly as long as this second clash does not occur. It can not where
no symbol has a name that ends in a digit. Distinct names are what the conversions between variants
and numbers need to be inverse to each other.
-/

namespace IncrementalLR.Package

/-! ### Letters and digits -/

theorem isUpper_or_isDigit_toUpper {c : Char} (h : c.isAlphanum = true) :
    c.toUpper.isUpper = true ∨ c.toUpper.isDigit = true := by
  rw [Char.isAlphanum, Bool.or_eq_true] at h
  rcases h with halpha | hdigit
  · rw [Char.isUpper_toUpper_eq_isAlpha]
    exact .inl halpha
  · have hlower : ¬ c.isLower = true := by
      simp only [Char.isDigit, Char.isLower, Bool.and_eq_true, decide_eq_true_eq] at hdigit ⊢
      intro hlower
      exact absurd (UInt32.le_trans hlower.1 hdigit.2) (by decide)
    rw [Char.toUpper_eq_of_not_isLower hlower]
    exact .inr hdigit

theorem isAlphanum_of_isUpper_or_isDigit {c : Char}
    (h : c.isUpper = true ∨ c.isDigit = true) : c.isAlphanum = true := by
  rcases h with h | h <;> simp [Char.isAlphanum, Char.isAlpha, h]

theorem isAlphanum_toUpper_digitChar {k : Nat} (h : k < 16) :
    (Nat.digitChar k).toUpper.isAlphanum = true := by
  revert k
  decide

theorem exists_digitChar_of_mem_toDigits {b n : Nat} (hb : 1 < b) {c : Char}
    (h : c ∈ b.toDigits n) : ∃ k < b, c = k.digitChar := by
  induction n using Nat.strong_induction_on with
  | _ n ih =>
      rw [Nat.toDigits_eq_if hb] at h
      split at h
      · rename_i hlt
        exact ⟨n, hlt, List.mem_singleton.1 h⟩
      · rename_i hge
        rcases List.mem_append.1 h with h | h
        · exact ih (n / b) (Nat.div_lt_self (by omega) hb) h
        · exact ⟨n % b, Nat.mod_lt n (by omega), List.mem_singleton.1 h⟩

theorem toList_toString (n : Nat) : (toString n).toList = Nat.toDigits 10 n := by
  simp [Nat.toString_eq_repr, Nat.repr]

theorem isDigit_of_mem_toString {n : Nat} {c : Char} (h : c ∈ (toString n).toList) :
    c.isDigit = true := by
  rw [toList_toString] at h
  exact Nat.isDigit_of_mem_toDigits (by decide) (by decide) h

theorem toString_ne_nil (n : Nat) : (toString n).toList ≠ [] := by
  rw [toList_toString]
  exact Nat.toDigits_ne_nil

/-! ### Identifiers -/

/-- Letters and digits of ASCII, in front a capital or a digit. Such texts can be put together. -/
structure Capitalized (name : String) : Prop where
  alphanumeric : ∀ c ∈ name.toList, c.isAlphanum = true
  head : ∀ c ∈ name.toList.head?, c.isUpper = true ∨ c.isDigit = true

instance (name : String) : Decidable (Capitalized name) :=
  decidable_of_iff (name.toList.all (·.isAlphanum) = true ∧
      name.toList.head?.all (fun c => c.isUpper || c.isDigit) = true)
    ⟨fun h => ⟨List.all_eq_true.1 h.1, fun c hc => by
        have hhead := h.2
        rw [Option.mem_def.1 hc] at hhead
        simpa using hhead⟩,
      fun h => ⟨List.all_eq_true.2 h.alphanumeric, by
        cases hhead : name.toList.head? with
        | none => rfl
        | some c => simpa using h.head c hhead⟩⟩

theorem Capitalized.append {a b : String} (ha : Capitalized a) (hb : Capitalized b) :
    Capitalized (a ++ b) := by
  refine ⟨fun c hc => ?_, fun c hc => ?_⟩
  · rw [String.toList_append, List.mem_append] at hc
    exact hc.elim (ha.alphanumeric c) (hb.alphanumeric c)
  · rw [String.toList_append, List.head?_append] at hc
    rcases Option.or_eq_some_iff.1 hc with hc | ⟨-, hc⟩
    · exact ha.head c hc
    · exact hb.head c hc

theorem capitalized_empty : Capitalized "" := by decide

theorem capitalized_join {parts : List String} (h : ∀ part ∈ parts, Capitalized part) :
    Capitalized (String.join parts) := by
  have hfold : ∀ front : String, Capitalized front →
      Capitalized (parts.foldl (fun out part => out ++ part) front) := by
    induction parts with
    | nil => exact fun front hfront => hfront
    | cons part parts ih =>
        intro front hfront
        exact ih (fun other hother => h other (List.mem_cons_of_mem part hother)) _
          (hfront.append (h part List.mem_cons_self))
  exact hfold "" capitalized_empty

theorem capitalized_toString (n : Nat) : Capitalized (toString n) where
  alphanumeric _ hc :=
    isAlphanum_of_isUpper_or_isDigit (.inr (isDigit_of_mem_toString hc))
  head _ hc := .inr (isDigit_of_mem_toString (List.mem_of_mem_head? hc))

theorem isAlphanum_of_mem_pascalChars {atStart : Bool} {name : List Char} {c : Char}
    (h : c ∈ pascalChars atStart name) : c.isAlphanum = true := by
  induction name generalizing atStart with
  | nil => cases h
  | cons d rest ih =>
      rw [pascalChars] at h
      split at h
      · rename_i hd
        rcases List.mem_cons.1 h with rfl | h
        · split
          · exact isAlphanum_of_isUpper_or_isDigit (isUpper_or_isDigit_toUpper hd)
          · exact hd
        · exact ih h
      · exact ih h

theorem head_pascalChars {name : List Char} {c : Char} (h : (pascalChars true name).head? = some c) :
    c.isUpper = true ∨ c.isDigit = true := by
  induction name with
  | nil => cases h
  | cons d rest ih =>
      rw [pascalChars] at h
      split at h
      · rename_i hd
        cases h
        exact isUpper_or_isDigit_toUpper hd
      · exact ih h

theorem capitalized_pascalCase (name : String) : Capitalized (pascalCase name) := by
  refine ⟨fun c hc => ?_, fun c hc => ?_⟩
  · rw [pascalCase, String.toList_ofList] at hc
    exact isAlphanum_of_mem_pascalChars hc
  · rw [pascalCase, String.toList_ofList] at hc
    exact head_pascalChars hc

theorem capitalized_punctuation : ∀ entry ∈ punctuation, Capitalized entry.2 := by
  have hall : ∀ entry ∈ punctuation, (entry.2.toList.all Char.isAlphanum &&
      entry.2.toList.head?.all fun c => c.isUpper) = true := by decide +kernel
  intro entry hentry
  obtain ⟨halphanumeric, hhead⟩ := Bool.and_eq_true_iff.1 (hall entry hentry)
  refine ⟨List.all_eq_true.1 halphanumeric, fun c hc => .inl ?_⟩
  rw [Option.mem_def.1 hc] at hhead
  exact hhead

theorem capitalized_codePoint (c : Char) : Capitalized ("U" ++ codePoint c) := by
  have hdigits : ∀ d ∈ (codePoint c).toList, d.isAlphanum = true := by
    intro d hd
    rw [codePoint, String.toList_ofList, List.mem_append] at hd
    rcases hd with hd | hd
    · rw [(List.mem_replicate.1 hd).2]
      decide
    · obtain ⟨e, he, rfl⟩ := List.mem_map.1 hd
      obtain ⟨k, hk, rfl⟩ := exists_digitChar_of_mem_toDigits (by decide) he
      exact isAlphanum_toUpper_digitChar hk
  refine ⟨fun d hd => ?_, fun d hd => .inl ?_⟩
  · rw [String.toList_append, List.mem_append] at hd
    rcases hd with hd | hd
    · obtain rfl : d = 'U' := by simpa using hd
      decide
    · exact hdigits d hd
  · obtain rfl : 'U' = d := by simpa [String.toList_append] using hd
    decide

theorem capitalized_spellChar (c : Char) : Capitalized (spellChar c) := by
  rw [spellChar]
  split
  · rename_i name hname
    have hkeys : punctuation.Pairwise fun a b => a.1 ≠ b.1 := by decide +kernel
    exact capitalized_punctuation _ ((lookup_eq_some_iff_mem hkeys).1 hname)
  · split
    · rename_i hc
      have hupper := isUpper_or_isDigit_toUpper hc
      exact ⟨fun d hd => by
        obtain rfl : d = c.toUpper := by simpa using hd
        exact isAlphanum_of_isUpper_or_isDigit hupper, fun d hd => by
        obtain rfl : c.toUpper = d := by simpa using hd
        exact hupper⟩
    · exact capitalized_codePoint c

theorem capitalized_literalName (text : String) : Capitalized (literalName text) := by
  rw [literalName]
  split
  · exact Capitalized.append (by decide) (capitalized_pascalCase text)
  · refine capitalized_join fun part hpart => ?_
    obtain ⟨c, -, rfl⟩ := List.mem_map.1 hpart
    exact capitalized_spellChar c

/-- A name that the enumeration may use. No reserved word but `Self` starts with a capital. -/
structure IsVariantName (name : String) : Prop where
  capital : ∃ c, name.toList.head? = some c ∧ c.isUpper = true
  alphanumeric : ∀ c ∈ name.toList, c.isAlphanum = true
  ne_self : name ≠ "Self"

theorem isVariantName_identifierOf {name : String} (h : Capitalized name) :
    IsVariantName (identifierOf name) := by
  rw [identifierOf]
  split
  · have hlist : ("T" ++ name).toList = 'T' :: name.toList := by simp [String.toList_append]
    refine ⟨⟨'T', by rw [hlist, List.head?_cons], by decide⟩, fun c hc => ?_, fun heq => ?_⟩
    · rw [hlist, List.mem_cons] at hc
      rcases hc with rfl | hc
      · decide
      · exact h.alphanumeric c hc
    · rw [← String.toList_inj, hlist] at heq
      cases heq
  · rename_i hkept
    simp only [Bool.or_eq_true, not_or, beq_iff_eq] at hkept
    obtain ⟨⟨hnonempty, hdigit⟩, hself⟩ := hkept
    cases hlist : name.toList with
    | nil => simp [String.toList_eq_nil_iff.1 hlist] at hnonempty
    | cons c rest =>
        have hhead : name.toList.head? = some c := by rw [hlist, List.head?_cons]
        have hnot : ¬ c.isDigit = true := by simpa [hhead] using hdigit
        exact ⟨⟨c, hhead, (h.head c hhead).resolve_right hnot⟩, h.alphanumeric, hself⟩

theorem isVariantName_proposedName (i : Nat) (info : SymbolInfo) :
    IsVariantName (proposedName i info) := by
  rw [proposedName]
  apply isVariantName_identifierOf
  split
  · decide
  · split
    · exact capitalized_literalName info.name
    · exact capitalized_pascalCase info.name

/-- A number behind a name leaves it one. -/
theorem IsVariantName.append_toString {name : String} (h : IsVariantName name) (n : Nat) :
    IsVariantName (name ++ toString n) := by
  obtain ⟨c, hhead, hupper⟩ := h.capital
  refine ⟨⟨c, ?_, hupper⟩, fun d hd => ?_, fun heq => ?_⟩
  · rw [String.toList_append, List.head?_append, hhead, Option.some_or]
  · rw [String.toList_append, List.mem_append] at hd
    exact hd.elim (h.alphanumeric d) ((capitalized_toString n).alphanumeric d)
  · obtain ⟨d, hd⟩ := List.exists_mem_of_ne_nil _ (toString_ne_nil n)
    have hself : d ∈ "Self".toList := by
      rw [← heq, String.toList_append]
      exact List.mem_append_right _ hd
    have hnone : "Self".toList.all (fun d => !d.isDigit) = true := by decide
    have hnot : (!d.isDigit) = true := List.all_eq_true.1 hnone d hself
    rw [isDigit_of_mem_toString hd] at hnot
    cases hnot

/-! ### Naming symbol by symbol -/

/-- The name that a symbol gets when these names are taken. -/
def givenName (taken : List String) (i : Nat) (info : SymbolInfo) : String :=
  if proposedName i info ∈ taken then proposedName i info ++ toString i else proposedName i info

theorem isVariantName_givenName (taken : List String) (i : Nat) (info : SymbolInfo) :
    IsVariantName (givenName taken i info) := by
  rw [givenName]
  split
  · exact (isVariantName_proposedName i info).append_toString i
  · exact isVariantName_proposedName i info

theorem nameSymbols_cons (used : List String) (info : SymbolInfo) (i : Nat)
    (rest : List (SymbolInfo × Nat)) : nameSymbols used ((info, i) :: rest)
      = if info.kind = .auxiliary then nameSymbols used rest
        else ⟨i, givenName used i info, info.name⟩
          :: nameSymbols (givenName used i info :: used) rest := by
  simp only [nameSymbols, givenName, List.contains_iff_mem]

theorem nameSymbols_append (used : List String) (symbols more : List (SymbolInfo × Nat)) :
    nameSymbols used (symbols ++ more) = nameSymbols used symbols
      ++ nameSymbols (((nameSymbols used symbols).map (·.name)).reverse ++ used) more := by
  induction symbols generalizing used with
  | nil => rfl
  | cons entry symbols ih =>
      obtain ⟨info, i⟩ := entry
      rw [List.cons_append, nameSymbols_cons, nameSymbols_cons]
      split
      · exact ih used
      · rw [ih]
        simp

theorem isVariantName_of_mem_nameSymbols {used : List String} {symbols : List (SymbolInfo × Nat)}
    {v : Variant} (h : v ∈ nameSymbols used symbols) : IsVariantName v.name := by
  induction symbols generalizing used with
  | nil => cases h
  | cons entry symbols ih =>
      obtain ⟨info, i⟩ := entry
      rw [nameSymbols_cons] at h
      split at h
      · exact ih h
      · rcases List.mem_cons.1 h with rfl | h
        · exact isVariantName_givenName used i info
        · exact ih h

/-- The variants stand for the symbols that are not auxiliary, in order. -/
theorem map_nameSymbols (used : List String) (symbols : List (SymbolInfo × Nat)) :
    (nameSymbols used symbols).map (fun v => (v.number, v.label))
      = (symbols.filter fun entry => entry.1.kind ≠ .auxiliary).map
        fun entry => (entry.2, entry.1.name) := by
  induction symbols generalizing used with
  | nil => rfl
  | cons entry symbols ih =>
      obtain ⟨info, i⟩ := entry
      rw [nameSymbols_cons, List.filter_cons]
      by_cases h : info.kind = .auxiliary
      · rw [if_pos h, if_neg (by simp [h]), ih]
      · rw [if_neg h, if_pos (by simp [h]), List.map_cons, List.map_cons, ih]

end IncrementalLR.Package

namespace IncrementalLR

open Package

namespace Table

variable {t : Table}

/-- The names of the variants for the first symbols. -/
def namesOfFirst (t : Table) (n : Nat) : List String :=
  (nameSymbols [] (t.symbols.toList.take n).zipIdx).map (·.name)

theorem namesOfFirst_size (t : Table) :
    t.namesOfFirst t.symbols.size = (kindVariants t).map (·.name) := by
  rw [namesOfFirst, kindVariants, ← Array.length_toList, List.take_length]

theorem namesOfFirst_succ {n : Nat} {info : SymbolInfo} (h : t.symbols[n]? = some info) :
    t.namesOfFirst (n + 1) = t.namesOfFirst n ++
      if info.kind = .auxiliary then [] else [givenName (t.namesOfFirst n) n info] := by
  have hget : t.symbols.toList[n]? = some info := by rw [Array.getElem?_toList, h]
  have hlength : (t.symbols.toList.take n).length = n :=
    List.length_take_of_le (Nat.le_of_lt (List.getElem?_eq_some_iff.1 hget).1)
  rw [namesOfFirst, namesOfFirst, List.take_add_one, hget, Option.toList_some, List.zipIdx_append,
    hlength, Nat.zero_add, List.zipIdx_singleton, nameSymbols_append, List.map_append,
    nameSymbols_cons]
  congr 1
  split
  · rfl
  · simp [givenName, nameSymbols]

/-- Whatever name is taken, behind it the number of the symbol makes a name that is not. -/
def SettlesClashes (t : Table) : Prop :=
  ∀ i info, t.symbols[i]? = some info → info.kind ≠ .auxiliary →
    proposedName i info ∈ t.namesOfFirst i →
    proposedName i info ++ toString i ∉ t.namesOfFirst i

/-- The name of a symbol is new unless it clashes twice. -/
theorem givenName_notMem_iff {taken : List String} {i : Nat} {info : SymbolInfo} :
    givenName taken i info ∉ taken ↔
      (proposedName i info ∈ taken → proposedName i info ++ toString i ∉ taken) := by
  rw [givenName]
  split
  · rename_i h
    simp [h]
  · rename_i h
    simp [h]

theorem nodup_namesOfFirst_iff {n : Nat} (hn : n ≤ t.symbols.size) :
    (t.namesOfFirst n).Nodup ↔
      ∀ i < n, ∀ info, t.symbols[i]? = some info → info.kind ≠ .auxiliary →
        proposedName i info ∈ t.namesOfFirst i →
        proposedName i info ++ toString i ∉ t.namesOfFirst i := by
  induction n with
  | zero => simp [namesOfFirst, nameSymbols]
  | succ n ih =>
      obtain ⟨info, hinfo⟩ : ∃ info, t.symbols[n]? = some info :=
        ⟨_, Array.getElem?_eq_getElem (Nat.lt_of_succ_le hn)⟩
      have hlast : (t.namesOfFirst (n + 1)).Nodup ↔ (t.namesOfFirst n).Nodup ∧
          (info.kind ≠ .auxiliary → givenName (t.namesOfFirst n) n info ∉ t.namesOfFirst n) := by
        rw [namesOfFirst_succ hinfo]
        by_cases haux : info.kind = .auxiliary
        · simp [haux]
        · rw [if_neg haux, List.nodup_append_comm, List.singleton_append, List.nodup_cons]
          exact ⟨fun h => ⟨h.2, fun _ => h.1⟩, fun h => ⟨h.2 haux, h.1⟩⟩
      rw [hlast, ih (Nat.le_of_succ_le hn)]
      constructor
      · rintro ⟨hbefore, hnew⟩ i hi info' hinfo' hkind
        rcases Nat.lt_succ_iff_lt_or_eq.1 hi with hi | rfl
        · exact hbefore i hi info' hinfo' hkind
        · rw [hinfo] at hinfo'
          cases hinfo'
          exact givenName_notMem_iff.1 (hnew hkind)
      · intro hall
        exact ⟨fun i hi => hall i (Nat.lt_succ_of_lt hi), fun hkind =>
          givenName_notMem_iff.2 (hall n (Nat.lt_succ_self n) info hinfo hkind)⟩

theorem nodup_kindVariants_iff (t : Table) :
    ((kindVariants t).map (·.name)).Nodup ↔ t.SettlesClashes := by
  rw [← namesOfFirst_size, nodup_namesOfFirst_iff (Nat.le_refl _)]
  constructor
  · intro h i info hinfo
    exact h i (Array.getElem?_eq_some_iff.1 hinfo).1 info hinfo
  · intro h i _ info hinfo
    exact h i info hinfo

/-! ### Names without a digit at the end -/

/-- The last character is a digit. -/
def EndsInDigit (name : String) : Prop := ∃ c ∈ name.toList.getLast?, c.isDigit = true

theorem endsInDigit_append_toString (name : String) (n : Nat) :
    EndsInDigit (name ++ toString n) := by
  obtain ⟨c, hc⟩ := Option.isSome_iff_exists.1 (List.getLast?_isSome.2 (toString_ne_nil n))
  refine ⟨c, ?_, isDigit_of_mem_toString (List.mem_of_getLast? hc)⟩
  rw [String.toList_append, List.getLast?_append, hc, Option.some_or, Option.mem_def]

/-- Behind names without a digit at the end, different numbers make different names. -/
theorem append_toString_inj {a b : String} {i j : Nat} (ha : ¬ EndsInDigit a)
    (hb : ¬ EndsInDigit b) (h : a ++ toString i = b ++ toString j) : i = j := by
  -- what one name has more than the other would be digits at its end
  have hnil : ∀ {a b : String} {i j : Nat} {more : List Char}, ¬ EndsInDigit a →
      a.toList = b.toList ++ more → (toString j).toList = more ++ (toString i).toList →
      more = [] := by
    intro a b i j more ha hlonger hdigits
    by_contra hne
    obtain ⟨c, hc⟩ := Option.isSome_iff_exists.1 (List.getLast?_isSome.2 hne)
    refine ha ⟨c, ?_, isDigit_of_mem_toString (n := j) ?_⟩
    · rw [hlonger, List.getLast?_append, hc, Option.some_or, Option.mem_def]
    · rw [hdigits]
      exact List.mem_append_left _ (List.mem_of_getLast? hc)
  have hdigits : (toString i).toList = (toString j).toList := by
    rw [← String.toList_inj, String.toList_append, String.toList_append] at h
    rcases List.append_eq_append_iff.1 h with ⟨more, hb', hi⟩ | ⟨more, ha', hj⟩
    · rw [hnil hb hb' hi] at hi
      exact hi
    · rw [hnil ha ha' hj] at hj
      exact hj.symm
  rw [toList_toString, toList_toString] at hdigits
  rw [← Nat.ofDigitChars_toDigits (b := 10) (n := i) (by decide) (by decide), hdigits,
    Nat.ofDigitChars_toDigits (by decide) (by decide)]

theorem mem_namesOfFirst {n : Nat} {name : String} (hn : n ≤ t.symbols.size)
    (h : name ∈ t.namesOfFirst n) : ∃ i < n, ∃ info, t.symbols[i]? = some info ∧
      info.kind ≠ .auxiliary ∧
      (name = proposedName i info ∨ name = proposedName i info ++ toString i) := by
  induction n with
  | zero => cases h
  | succ n ih =>
      obtain ⟨info, hinfo⟩ : ∃ info, t.symbols[n]? = some info :=
        ⟨_, Array.getElem?_eq_getElem (Nat.lt_of_succ_le hn)⟩
      rw [namesOfFirst_succ hinfo, List.mem_append] at h
      rcases h with h | h
      · obtain ⟨i, hi, hrest⟩ := ih (Nat.le_of_succ_le hn) h
        exact ⟨i, Nat.lt_succ_of_lt hi, hrest⟩
      · split at h
        · cases h
        · rename_i hkind
          refine ⟨n, Nat.lt_succ_self n, info, hinfo, hkind, ?_⟩
          rw [List.mem_singleton.1 h, givenName]
          split
          · exact .inr rfl
          · exact .inl rfl

theorem settlesClashes_of_no_final_digit
    (h : ∀ i info, t.symbols[i]? = some info → info.kind ≠ .auxiliary →
      ¬ EndsInDigit (proposedName i info)) : t.SettlesClashes := by
  intro j info hinfo hkind _ hmem
  have hj := (Array.getElem?_eq_some_iff.1 hinfo).1
  obtain ⟨i, hi, other, hother, hotherKind, hname⟩ := mem_namesOfFirst (Nat.le_of_lt hj) hmem
  rcases hname with hname | hname
  · refine h i other hother hotherKind ?_
    rw [← hname]
    exact endsInDigit_append_toString _ j
  · have heq := append_toString_inj (h j info hinfo hkind) (h i other hother hotherKind) hname
    omega

end Table

/-! ### Conversions -/

namespace Package

/-- What the conversion from numbers makes of a number: the variant of its arm. -/
def variantOf? (variants : List Variant) (n : Nat) : Option String :=
  (variants.find? fun v => v.number = n).map (·.name)

/-- What the conversion to numbers makes of a variant. -/
def numberOf? (variants : List Variant) (name : String) : Option Nat :=
  (variants.find? fun v => v.name = name).map (·.number)

theorem exists_of_variantOf? {variants : List Variant} {n : Nat} {name : String}
    (h : variantOf? variants n = some name) : ∃ v ∈ variants, v.number = n ∧ v.name = name := by
  obtain ⟨v, hv, hname⟩ := Option.map_eq_some_iff.1 h
  exact ⟨v, List.mem_of_find?_eq_some hv, by simpa using List.find?_some hv, hname⟩

/-- Where the keys are distinct, an entry is found by its key. -/
theorem find?_key {κ : Type} [DecidableEq κ] {key : Variant → κ} {variants : List Variant}
    (h : (variants.map key).Nodup) {v : Variant} (hv : v ∈ variants) :
    variants.find? (fun w => key w = key v) = some v := by
  cases hfind : variants.find? fun w => key w = key v with
  | none =>
      have hnone := List.find?_eq_none.1 hfind v hv
      simp at hnone
  | some w =>
      have hkey : key w = key v := by simpa using List.find?_some hfind
      rw [List.inj_on_of_nodup_map h (List.mem_of_find?_eq_some hfind) hv hkey]

/-- The conversions are inverse to each other just if the names are distinct. -/
theorem nodup_iff_numberOf?_variantOf? {variants : List Variant}
    (hnumbers : (variants.map (·.number)).Nodup) :
    (variants.map (·.name)).Nodup ↔ ∀ n name, variantOf? variants n = some name →
      numberOf? variants name = some n := by
  constructor
  · intro hnames n name h
    obtain ⟨v, hv, rfl, rfl⟩ := exists_of_variantOf? h
    rw [numberOf?, find?_key hnames hv, Option.map_some]
  · intro hinverse
    have hnumber : ∀ v ∈ variants, numberOf? variants v.name = some v.number := by
      intro v hv
      refine hinverse v.number v.name ?_
      rw [variantOf?, find?_key hnumbers hv, Option.map_some]
    -- the numbers of the names are distinct, and so are the names
    refine List.Nodup.of_map (numberOf? variants) ?_
    rw [List.map_map, List.map_congr_left (g := some ∘ fun v => v.number) hnumber,
      ← List.map_map]
    exact hnumbers.map (Option.some_injective _)

theorem nodup_numbers_kindVariants (t : Table) : ((kindVariants t).map (·.number)).Nodup := by
  have hnumbers : (kindVariants t).map (·.number)
      = (t.symbols.toList.zipIdx.filter fun entry => entry.1.kind ≠ .auxiliary).map (·.2) := by
    have hmap := congrArg (List.map Prod.fst) (map_nameSymbols [] t.symbols.toList.zipIdx)
    rwa [List.map_map, List.map_map] at hmap
  have hall : (t.symbols.toList.zipIdx.map (·.2)).Nodup := by
    rw [List.zipIdx_map_snd]
    exact List.nodup_range'
  rw [hnumbers]
  exact (List.filter_sublist.map _).nodup hall

end Package

/-- The variants stand for the symbols that are not auxiliary, and each has a name that the
enumeration may use. The names are distinct just if every name that is taken is free behind the
number of its symbol, as it is when no symbol has a name that ends in a digit; and just if a number
that becomes a variant is what the variant becomes again. -/
theorem Table.kindVariants_names (t : Table) :
    (kindVariants t).map (fun v => (v.number, v.label))
      = (t.symbols.toList.zipIdx.filter fun entry => entry.1.kind ≠ .auxiliary).map
        (fun entry => (entry.2, entry.1.name)) ∧
    (∀ v ∈ kindVariants t, IsVariantName v.name) ∧
    (((kindVariants t).map (·.name)).Nodup ↔ t.SettlesClashes) ∧
    ((∀ i info, t.symbols[i]? = some info → info.kind ≠ .auxiliary →
      ¬ EndsInDigit (proposedName i info)) → t.SettlesClashes) ∧
    (((kindVariants t).map (·.name)).Nodup ↔ ∀ n name,
      variantOf? (kindVariants t) n = some name → numberOf? (kindVariants t) name = some n) :=
  ⟨map_nameSymbols [] t.symbols.toList.zipIdx, fun _ => isVariantName_of_mem_nameSymbols,
    t.nodup_kindVariants_iff, Table.settlesClashes_of_no_final_digit,
    nodup_iff_numberOf?_variantOf? (nodup_numbers_kindVariants t)⟩

/-- The third symbol clashes with the first, and with the number behind it with the second. -/
example : (nameSymbols [] [(⟨"a", .terminal, true, true, false⟩, 1),
      (⟨"a3", .terminal, true, true, false⟩, 2), (⟨"_a", .terminal, false, true, false⟩, 3)]).map
        (·.name)
    = ["A", "A3", "A3"] := by
  decide +kernel

end IncrementalLR
