import IncrementalLR.GrammarText.Reader
import IncrementalLR.Proofs.Fold
import Mathlib.Data.Set.Subsingleton

/-!
# The grammar notation and its reader

The notation is written down as a grammar over tokens, with the rule that each of its parts stands for.
The reader looks at one token or two to decide how to go on. That is enough: it reads a file exactly if
the tokens of the file are of the notation, so there is one reading at most.
-/

namespace IncrementalLR.GrammarText

/-! ### The notation -/

/-- The names that are called and stand for no rule or token. -/
def builtinNames : List String :=
  ["blank", "token", "prec", "prec_left", "prec_right", "prec_dynamic"]

/-- The rule of a builtin that is called with a level and a body. A body that stands for nothing counts
as none. -/
inductive IsCall : String → Option Int → Rule → Rule → Prop
  | blank : IsCall "blank" none .blank .blank
  | token (body : Rule) (h : body ≠ .blank) : IsCall "token" none body (.token body)
  | prec (n : Int) (body : Rule) (h : body ≠ .blank) :
      IsCall "prec" (some n) body (.ranked (Int32.ofInt n) none body)
  | precLeft (n : Int) (body : Rule) (h : body ≠ .blank) :
      IsCall "prec_left" (some n) body (.ranked (Int32.ofInt n) (some .left) body)
  | plainLeft (body : Rule) (h : body ≠ .blank) :
      IsCall "prec_left" none body (.ranked 0 (some .left) body)
  | precRight (n : Int) (body : Rule) (h : body ≠ .blank) :
      IsCall "prec_right" (some n) body (.ranked (Int32.ofInt n) (some .right) body)
  | plainRight (body : Rule) (h : body ≠ .blank) :
      IsCall "prec_right" none body (.ranked 0 (some .right) body)
  | precDynamic (n : Int) (body : Rule) (h : body ≠ .blank) :
      IsCall "prec_dynamic" (some n) body (.weighted (Int32.ofInt n) body)

/-- The tokens of the level of a call. -/
def levelTokens : Option Int → List Token
  | none => []
  | some n => [.int n, .comma]

inductive Operator where
  | star
  | plus
  | question
  deriving DecidableEq, Repr, Inhabited

namespace Operator

def token : Operator → Token
  | star => .star
  | plus => .plus
  | question => .question

def wrap (rule : Rule) : Operator → Rule
  | star => .zeroOrMore rule
  | plus => .oneOrMore rule
  | question => .optional rule

end Operator

/-- Parts one behind the other. -/
inductive IsSequence : List Rule → Rule → Prop
  | none : IsSequence [] .blank
  | one (rule : Rule) : IsSequence [rule] rule
  | several (first second : Rule) (rest : List Rule) :
      IsSequence (first :: second :: rest) (.seq (first :: second :: rest))

/-- Alternatives between bars. -/
inductive IsChoice : List Rule → Rule → Prop
  | one (rule : Rule) : IsChoice [rule] rule
  | several (first second : Rule) (rest : List Rule) :
      IsChoice (first :: second :: rest) (.choice (first :: second :: rest))

mutual

inductive IsAtom : List Token → Rule → Prop
  | literal (text : String) : IsAtom [.str text] (.literal text)
  | pattern (source : String) : IsAtom [.regex source] (.pattern source)
  | name (name : String) (h : name ∉ builtinNames) : IsAtom [.ident name] (.symbol name)
  | group (ts : List Token) (rule : Rule) (h : IsBody ts rule) :
      IsAtom (.lparen :: (ts ++ [.rparen])) rule
  | call (name : String) (level : Option Int) (ts : List Token) (body rule : Rule)
      (h : IsBody ts body) (hcall : IsCall name level body rule) :
      IsAtom (.ident name :: .lparen :: (levelTokens level ++ (ts ++ [.rparen]))) rule

/-- An atom in postfix operators, the first one innermost. -/
inductive IsPostfix : List Token → Rule → Prop
  | mk (ts : List Token) (rule : Rule) (operators : List Operator) (h : IsAtom ts rule) :
      IsPostfix (ts ++ operators.map (·.token)) (operators.foldl Operator.wrap rule)

inductive IsElement : List Token → Rule → Prop
  | plain (ts : List Token) (rule : Rule) (h : IsPostfix ts rule) : IsElement ts rule
  | field (name : String) (ts : List Token) (rule : Rule) (h : IsPostfix ts rule) :
      IsElement (.ident name :: .colon :: ts) (.field name rule)

inductive IsElements : List Token → List Rule → Prop
  | nil : IsElements [] []
  | cons (ts ts' : List Token) (rule : Rule) (rules : List Rule) (h : IsElement ts rule)
      (hrest : IsElements ts' rules) : IsElements (ts ++ ts') (rule :: rules)

/-- Sequences with bars between them. -/
inductive IsAlternatives : List Token → List Rule → Prop
  | last (ts : List Token) (parts : List Rule) (rule : Rule) (h : IsElements ts parts)
      (hrule : IsSequence parts rule) : IsAlternatives ts [rule]
  | bar (ts ts' : List Token) (parts rules : List Rule) (rule : Rule) (h : IsElements ts parts)
      (hrule : IsSequence parts rule) (hrest : IsAlternatives ts' rules) :
      IsAlternatives (ts ++ .pipe :: ts') (rule :: rules)

inductive IsBody : List Token → Rule → Prop
  | mk (ts : List Token) (alternatives : List Rule) (rule : Rule) (h : IsAlternatives ts alternatives)
      (hrule : IsChoice alternatives rule) : IsBody ts rule

end

def Arg.token : Arg → Token
  | ident name => .ident name
  | str text => .str text
  | regex source => .regex source
  | int value => .int value

/-- A file of rules and directives. -/
inductive Declares : List Token → List Item → Prop
  | nil : Declares [] []
  | rule (name : String) (ts rest : List Token) (body : Rule) (items : List Item)
      (hbody : IsBody ts body) (h : Declares rest items) :
      Declares (.ident name :: .arrow :: (ts ++ .semi :: rest)) (.rule name body :: items)
  | directive (name : String) (args : List Arg) (rest : List Token) (items : List Item)
      (h : Declares rest items) :
      Declares (.directive name :: (args.map (·.token) ++ .semi :: rest))
        (.directive name args (args.length + rest.length + 2) :: items)

/-! ### Rules of the parts -/

theorem isSequence_iff {rules : List Rule} {rule : Rule} :
    IsSequence rules rule ↔ rule = sequenceRule rules := by
  constructor
  · rintro (_ | _ | _) <;> rfl
  · rintro rfl
    match rules with
    | [] => exact .none
    | [rule] => exact .one rule
    | first :: second :: rest => exact .several first second rest

theorem isChoice_iff {rules : List Rule} {rule : Rule} (hne : rules ≠ []) :
    IsChoice rules rule ↔ rule = choiceRule rules := by
  constructor
  · rintro (_ | _) <;> rfl
  · rintro rfl
    match rules with
    | [] => exact absurd rfl hne
    | [rule] => exact .one rule
    | first :: second :: rest => exact .several first second rest

theorem IsAlternatives.ne_nil {ts : List Token} {rules : List Rule} (h : IsAlternatives ts rules) :
    rules ≠ [] := by
  cases h <;> exact List.cons_ne_nil _ _

theorem isBody_iff {ts : List Token} {rule : Rule} :
    IsBody ts rule ↔ ∃ rules, IsAlternatives ts rules ∧ rule = choiceRule rules := by
  constructor
  · rintro ⟨_, rules, _, h, hrule⟩
    exact ⟨rules, h, (isChoice_iff h.ne_nil).1 hrule⟩
  · rintro ⟨rules, h, hrule⟩
    exact .mk ts rules rule h ((isChoice_iff h.ne_nil).2 hrule)

theorem Builtin.ofName?_eq_none_iff {name : String} :
    Builtin.ofName? name = none ↔ name ∉ builtinNames := by
  unfold Builtin.ofName?
  split <;> simp_all [builtinNames]

theorem Builtin.apply_blank (builtin : Builtin) (level : Option Int) :
    builtin.apply level (some .blank) = if builtin = .blank ∧ level = none then some .blank else none := by
  cases builtin <;> cases level <;> rfl

theorem Builtin.apply_of_ne {body : Rule} (h : body ≠ .blank) (builtin : Builtin)
    (level : Option Int) : builtin.apply level (some body) = match builtin, level with
      | .token, none => some (.token body)
      | .prec, some n => some (.ranked (Int32.ofInt n) none body)
      | .precLeft, n => some (.ranked (Int32.ofInt (n.getD 0)) (some .left) body)
      | .precRight, n => some (.ranked (Int32.ofInt (n.getD 0)) (some .right) body)
      | .precDynamic, some n => some (.weighted (Int32.ofInt n) body)
      | _, _ => none := by
  cases body with
  | blank => exact absurd rfl h
  | _ => cases builtin <;> cases level <;> rfl

theorem Builtin.apply_eq_some_iff {name : String} {builtin : Builtin} {level : Option Int}
    {body rule : Rule} (hname : Builtin.ofName? name = some builtin) :
    builtin.apply level (some body) = some rule ↔ IsCall name level body rule := by
  constructor
  · intro h
    by_cases hbody : body = .blank
    · subst hbody
      rw [apply_blank] at h
      split at h
      · rename_i hboth
        obtain ⟨rfl, rfl⟩ := hboth
        cases h
        unfold ofName? at hname
        split at hname <;> cases hname
        exact .blank
      · cases h
    · rw [apply_of_ne hbody] at h
      unfold ofName? at hname
      split at hname <;> cases hname <;> cases level <;> cases h
      · exact .token body hbody
      · exact .prec _ body hbody
      · exact .plainLeft body hbody
      · exact .precLeft _ body hbody
      · exact .plainRight body hbody
      · exact .precRight _ body hbody
      · exact .precDynamic _ body hbody
  · intro h
    cases h <;> cases hname
    · rfl
    all_goals exact apply_of_ne (by assumption) _ _

theorem IsCall.mem_builtinNames {name : String} {level : Option Int} {body rule : Rule}
    (h : IsCall name level body rule) : name ∈ builtinNames := by
  cases h <;> decide

/-! ### What is read is of the notation -/

theorem expect_eq_ok {t : Token} {ts rest : List Token} {u : Unit}
    (h : Reader.expect t ts = .ok (u, rest)) : ts = t :: rest := by
  cases ts with
  | nil => cases h
  | cons t' ts =>
      rw [Reader.expect] at h
      split at h
      · rename_i heq
        cases h
        rw [heq]
      · cases h

/-- The operators in front of the tokens that are left are those around the rule. -/
theorem exists_of_readOperators (rule : Rule) (ts : List Token) :
    ∃ operators : List Operator, ts = operators.map (·.token) ++ (readOperators rule ts).2 ∧
      (readOperators rule ts).1 = operators.foldl Operator.wrap rule := by
  fun_induction readOperators rule ts with
  | case1 rule ts ih =>
      obtain ⟨operators, hts, hrule⟩ := ih
      exact ⟨.star :: operators, congrArg _ hts, hrule⟩
  | case2 rule ts ih =>
      obtain ⟨operators, hts, hrule⟩ := ih
      exact ⟨.plus :: operators, congrArg _ hts, hrule⟩
  | case3 rule ts ih =>
      obtain ⟨operators, hts, hrule⟩ := ih
      exact ⟨.question :: operators, congrArg _ hts, hrule⟩
  | case4 => exact ⟨[], rfl, rfl⟩

theorem readLevel_spec (ts : List Token) : ts = levelTokens (readLevel ts).1 ++ (readLevel ts).2 := by
  unfold readLevel
  split <;> rfl

/-- All that the readers of parts read with so much fuel is of the notation. -/
structure ReadsSoundly (fuel : Nat) : Prop where
  alternatives : ∀ ts rules rest, readAlternatives fuel ts = .ok (rules, rest) →
    ∃ front, ts = front ++ rest ∧ IsAlternatives front rules
  sequence : ∀ ts rules rest, readSequence fuel ts = .ok (rules, rest) →
    ∃ front, ts = front ++ rest ∧ IsElements front rules
  element : ∀ ts rule rest, readElement fuel ts = .ok (rule, rest) →
    ∃ front, ts = front ++ rest ∧ IsElement front rule
  postfixed : ∀ ts rule rest, readPostfix fuel ts = .ok (rule, rest) →
    ∃ front, ts = front ++ rest ∧ IsPostfix front rule
  atom : ∀ ts rule rest, readAtom fuel ts = .ok (rule, rest) →
    ∃ front, ts = front ++ rest ∧ IsAtom front rule

namespace ReadsSoundly

variable {fuel : Nat} {ts rest : List Token} {rule : Rule} {rules : List Rule}

theorem readAlternatives_succ (h : ReadsSoundly fuel)
    (hread : readAlternatives (fuel + 1) ts = .ok (rules, rest)) :
    ∃ front, ts = front ++ rest ∧ IsAlternatives front rules := by
  rw [readAlternatives] at hread
  obtain ⟨⟨parts, behind⟩, hparts, hnext⟩ := exists_of_bind_eq_ok hread
  clear hread
  obtain ⟨front, rfl, hfront⟩ := h.sequence _ _ _ hparts
  have hrule := isSequence_iff.2 (rfl : sequenceRule parts = sequenceRule parts)
  simp only at hnext
  split at hnext
  · obtain ⟨⟨others, last⟩, hothers, hends⟩ := exists_of_bind_eq_ok hnext
    cases hends
    obtain ⟨back, rfl, hback⟩ := h.alternatives _ _ _ hothers
    exact ⟨front ++ .pipe :: back, by simp, .bar front back parts others _ hfront hrule hback⟩
  · cases hnext
    exact ⟨front, rfl, .last front parts _ hfront hrule⟩

theorem readSequence_succ (h : ReadsSoundly fuel)
    (hread : readSequence (fuel + 1) ts = .ok (rules, rest)) :
    ∃ front, ts = front ++ rest ∧ IsElements front rules := by
  rw [readSequence] at hread
  split at hread
  · obtain ⟨⟨rule, behind⟩, hrule, hnext⟩ := exists_of_bind_eq_ok hread
    obtain ⟨⟨others, last⟩, hothers, hends⟩ := exists_of_bind_eq_ok hnext
    cases hends
    obtain ⟨front, rfl, hfront⟩ := h.element _ _ _ hrule
    obtain ⟨back, rfl, hback⟩ := h.sequence _ _ _ hothers
    exact ⟨front ++ back, (List.append_assoc ..).symm, .cons front back rule others hfront hback⟩
  · cases hread
    exact ⟨[], rfl, .nil⟩

theorem readElement_succ (h : ReadsSoundly fuel)
    (hread : readElement (fuel + 1) ts = .ok (rule, rest)) :
    ∃ front, ts = front ++ rest ∧ IsElement front rule := by
  rw [readElement.eq_def] at hread
  simp only at hread
  split at hread
  · rename_i name behind
    split at hread
    · rename_i body last hbody
      cases hread
      obtain ⟨front, rfl, hfront⟩ := h.postfixed _ _ _ hbody
      exact ⟨.ident name :: .colon :: front, rfl, .field name front body hfront⟩
    · cases hread
  · obtain ⟨front, rfl, hfront⟩ := h.postfixed _ _ _ hread
    exact ⟨front, rfl, .plain front rule hfront⟩

theorem readPostfix_succ (h : ReadsSoundly fuel)
    (hread : readPostfix (fuel + 1) ts = .ok (rule, rest)) :
    ∃ front, ts = front ++ rest ∧ IsPostfix front rule := by
  rw [readPostfix] at hread
  obtain ⟨⟨inner, behind⟩, hinner, hends⟩ := exists_of_bind_eq_ok hread
  obtain ⟨operators, hbehind, hrule⟩ := exists_of_readOperators inner behind
  have hends : readOperators inner behind = (rule, rest) := Except.ok.inj hends
  rw [hends] at hbehind hrule
  obtain ⟨front, rfl, hfront⟩ := h.atom _ _ _ hinner
  refine ⟨front ++ operators.map (·.token), ?_, ?_⟩
  · rw [List.append_assoc, hbehind]
  · rw [show rule = _ from hrule]
    exact .mk front inner operators hfront

theorem readAtom_succ (h : ReadsSoundly fuel) (hread : readAtom (fuel + 1) ts = .ok (rule, rest)) :
    ∃ front, ts = front ++ rest ∧ IsAtom front rule := by
  rw [readAtom.eq_def] at hread
  simp only at hread
  split at hread
  · rename_i text behind
    cases hread
    exact ⟨[.str text], rfl, .literal text⟩
  · rename_i source behind
    cases hread
    exact ⟨[.regex source], rfl, .pattern source⟩
  · obtain ⟨⟨rules, behind⟩, hrules, hnext⟩ := exists_of_bind_eq_ok hread
    obtain ⟨⟨_, last⟩, hclose, hends⟩ := exists_of_bind_eq_ok hnext
    cases hends
    obtain ⟨front, rfl, hfront⟩ := h.alternatives _ _ _ hrules
    have hbody := isBody_iff.2 ⟨rules, hfront, rfl⟩
    obtain rfl : behind = .rparen :: last := expect_eq_ok hclose
    exact ⟨.lparen :: (front ++ [.rparen]), by simp, .group front _ hbody⟩
  · rename_i name behind
    split at hread
    · rename_i hname
      cases hread
      exact ⟨[.ident name], rfl, .name name (Builtin.ofName?_eq_none_iff.1 hname)⟩
    · rename_i builtin hname
      obtain ⟨⟨_, args⟩, hopen, hnext⟩ := exists_of_bind_eq_ok hread
      clear hread
      obtain rfl := expect_eq_ok hopen
      obtain ⟨⟨rules, behind⟩, hrules, hlast⟩ := exists_of_bind_eq_ok hnext
      obtain ⟨⟨_, last⟩, hclose, hends⟩ := exists_of_bind_eq_ok hlast
      obtain rfl : behind = .rparen :: last := expect_eq_ok hclose
      obtain ⟨front, hfronts, hfront⟩ := h.alternatives _ _ _ hrules
      have hbody := isBody_iff.2 ⟨rules, hfront, rfl⟩
      have hlevel : args = levelTokens (readLevel args).1 ++ (front ++ .rparen :: last) :=
        hfronts ▸ readLevel_spec args
      split at hends
      · rename_i found hfound
        cases hends
        refine ⟨.ident name :: .lparen :: (levelTokens (readLevel args).1 ++ (front ++ [.rparen])),
          ?_, .call name _ front _ _ hbody ((Builtin.apply_eq_some_iff hname).1 hfound)⟩
        calc .ident name :: .lparen :: args
            = .ident name :: .lparen :: (levelTokens (readLevel args).1 ++ (front ++ .rparen :: last)) := by
              rw [← hlevel]
          _ = _ := by simp
      · cases hends
  · cases hread

end ReadsSoundly

theorem readsSoundly (fuel : Nat) : ReadsSoundly fuel := by
  induction fuel with
  | zero => exact ⟨nofun, nofun, nofun, nofun, nofun⟩
  | succ fuel ih =>
      exact ⟨fun _ _ _ => ih.readAlternatives_succ, fun _ _ _ => ih.readSequence_succ,
        fun _ _ _ => ih.readElement_succ, fun _ _ _ => ih.readPostfix_succ,
        fun _ _ _ => ih.readAtom_succ⟩

/-! ### What is of the notation is read -/

/-- An operator or a colon, which belongs to the part in front of it. -/
def Token.goesOn : Token → Bool
  | .star | .plus | .question | .colon => true
  | _ => false

/-- An element may end in front of these tokens. -/
def EndsElement (rest : List Token) : Prop := ∀ t ∈ rest.head?, t.goesOn = false

/-- A sequence may end in front of these tokens. -/
def EndsSequence (rest : List Token) : Prop := ∀ t ∈ rest.head?, t = .pipe ∨ t = .rparen ∨ t = .semi

/-- A body may end in front of these tokens. -/
def EndsBody (rest : List Token) : Prop := ∀ t ∈ rest.head?, t = .rparen ∨ t = .semi

section Ends

variable {rest : List Token}

theorem endsBody_rparen : EndsBody (.rparen :: rest) := fun _ ht => .inl (Option.some.inj ht).symm

theorem endsBody_semi : EndsBody (.semi :: rest) := fun _ ht => .inr (Option.some.inj ht).symm

theorem endsSequence_pipe : EndsSequence (.pipe :: rest) := fun _ ht => .inl (Option.some.inj ht).symm

theorem EndsBody.endsSequence (h : EndsBody rest) : EndsSequence rest := fun t ht => .inr (h t ht)

theorem EndsSequence.endsElement (h : EndsSequence rest) : EndsElement rest := by
  intro t ht
  rcases h t ht with rfl | rfl | rfl <;> rfl

theorem EndsSequence.startsElement (h : EndsSequence rest) : startsElement rest = false := by
  cases rest with
  | nil => rfl
  | cons t rest => rcases h t rfl with rfl | rfl | rfl <;> rfl

theorem endsElement_of_startsElement (h : startsElement rest = true) : EndsElement rest := by
  intro t ht
  cases rest with
  | nil => cases ht
  | cons t' rest =>
      cases ht
      cases t <;> simp_all [GrammarText.startsElement, Token.goesOn]

end Ends

theorem IsAtom.startsElement {ts : List Token} {rule : Rule} (h : IsAtom ts rule) (rest : List Token) :
    startsElement (ts ++ rest) = true := by
  cases h <;> rfl

theorem IsPostfix.startsElement {ts : List Token} {rule : Rule} (h : IsPostfix ts rule)
    (rest : List Token) : startsElement (ts ++ rest) = true := by
  cases h with
  | mk ts rule operators h =>
      rw [List.append_assoc]
      exact h.startsElement _

theorem IsElement.startsElement {ts : List Token} {rule : Rule} (h : IsElement ts rule)
    (rest : List Token) : startsElement (ts ++ rest) = true := by
  cases h with
  | plain ts rule h => exact h.startsElement rest
  | field => rfl

theorem IsElement.length_pos {ts : List Token} {rule : Rule} (h : IsElement ts rule) :
    0 < ts.length := by
  have hstarts := h.startsElement []
  cases ts with
  | nil => cases hstarts
  | cons t ts => exact Nat.succ_pos _

theorem readOperators_append (rule : Rule) (operators : List Operator) {rest : List Token}
    (h : EndsElement rest) :
    readOperators rule (operators.map (·.token) ++ rest)
      = (operators.foldl Operator.wrap rule, rest) := by
  induction operators generalizing rule with
  | nil =>
      rw [List.map_nil, List.nil_append, List.foldl_nil]
      unfold readOperators
      split
      · cases h .star rfl
      · cases h .plus rfl
      · cases h .question rfl
      · rfl
  | cons operator operators ih => cases operator <;> exact ih _

/-- A name that is an atom is not in front of a colon. -/
theorem IsPostfix.ne_field {ts : List Token} {rule : Rule} (h : IsPostfix ts rule) {rest : List Token}
    (hrest : EndsElement rest) (name : String) (behind : List Token) :
    ts ++ rest ≠ .ident name :: .colon :: behind := by
  obtain ⟨ts, rule, operators, hatom⟩ := h
  intro heq
  cases hatom with
  | literal | pattern | group | call => cases heq
  | name =>
      have htail : operators.map (·.token) ++ rest = .colon :: behind := (List.cons.inj heq).2
      cases operators with
      | nil =>
          rw [List.map_nil, List.nil_append] at htail
          cases hrest .colon (by rw [htail]; rfl)
      | cons operator operators => cases operator <;> cases htail

/-- In front of the end of a call a body does not begin with an integer. -/
theorem IsAlternatives.head?_ne {ts : List Token} {rules : List Rule} (h : IsAlternatives ts rules)
    (rest : List Token) (n : Int) : (ts ++ .rparen :: rest).head? ≠ some (.int n) := by
  have helements : ∀ (ts : List Token) (rules : List Rule) (t : Token) (rest : List Token),
      IsElements ts rules → t ≠ .int n → (ts ++ t :: rest).head? ≠ some (.int n) := by
    intro ts rules t rest h ht heq
    cases h with
    | nil => exact ht (Option.some.inj heq)
    | cons front back rule rules h _ =>
        have hstarts := h.startsElement (back ++ t :: rest)
        rw [List.append_assoc] at heq
        obtain ⟨tail, htail⟩ := List.head?_eq_some_iff.1 heq
        rw [htail] at hstarts
        cases hstarts
  cases h with
  | last ts parts rule h _ => exact helements ts parts _ rest h nofun
  | bar ts ts' parts rules rule h _ _ =>
      rw [List.append_assoc]
      exact helements ts parts _ _ h nofun

theorem readLevel_append {ts : List Token} {rules : List Rule} (h : IsAlternatives ts rules)
    (level : Option Int) (rest : List Token) :
    readLevel (levelTokens level ++ (ts ++ .rparen :: rest)) = (level, ts ++ .rparen :: rest) := by
  cases level with
  | some n => rfl
  | none =>
      rw [levelTokens, List.nil_append]
      unfold readLevel
      split
      · rename_i n behind heq
        exact absurd (by rw [heq]; rfl) (h.head?_ne rest n)
      · rfl

/-- The readers of parts read all that is of the notation and is not too long for the fuel. -/
structure ReadsAll (fuel : Nat) : Prop where
  alternatives : ∀ ts rules rest, IsAlternatives ts rules → EndsBody rest →
    5 * ts.length + 5 ≤ fuel → readAlternatives fuel (ts ++ rest) = .ok (rules, rest)
  sequence : ∀ ts rules rest, IsElements ts rules → EndsSequence rest →
    5 * ts.length + 4 ≤ fuel → readSequence fuel (ts ++ rest) = .ok (rules, rest)
  element : ∀ ts rule rest, IsElement ts rule → EndsElement rest →
    5 * ts.length + 3 ≤ fuel → readElement fuel (ts ++ rest) = .ok (rule, rest)
  postfixed : ∀ ts rule rest, IsPostfix ts rule → EndsElement rest →
    5 * ts.length + 2 ≤ fuel → readPostfix fuel (ts ++ rest) = .ok (rule, rest)
  atom : ∀ ts rule rest, IsAtom ts rule →
    5 * ts.length + 1 ≤ fuel → readAtom fuel (ts ++ rest) = .ok (rule, rest)

namespace ReadsAll

variable {fuel : Nat} {ts rest : List Token} {rule : Rule} {rules : List Rule}

theorem readAlternatives_succ (h : ReadsAll fuel) (hts : IsAlternatives ts rules)
    (hrest : EndsBody rest) (hfuel : 5 * ts.length + 5 ≤ fuel + 1) :
    readAlternatives (fuel + 1) (ts ++ rest) = .ok (rules, rest) := by
  cases hts with
  | last ts parts rule hparts hrule =>
      obtain rfl := isSequence_iff.1 hrule
      rw [readAlternatives, h.sequence _ _ _ hparts hrest.endsSequence (by omega)]
      cases rest with
      | nil => rfl
      | cons t rest => rcases hrest t rfl with rfl | rfl <;> rfl
  | bar ts ts' parts rules rule hparts hrule hothers =>
      obtain rfl := isSequence_iff.1 hrule
      simp only [List.length_append, List.length_cons] at hfuel
      rw [List.append_assoc, List.cons_append, readAlternatives,
        h.sequence _ _ _ hparts endsSequence_pipe (by omega)]
      change (readAlternatives fuel (ts' ++ rest) >>= _) = _
      rw [h.alternatives _ _ _ hothers hrest (by omega)]
      rfl

theorem readSequence_succ (h : ReadsAll fuel) (hts : IsElements ts rules)
    (hrest : EndsSequence rest) (hfuel : 5 * ts.length + 4 ≤ fuel + 1) :
    readSequence (fuel + 1) (ts ++ rest) = .ok (rules, rest) := by
  cases hts with
  | nil =>
      rw [List.nil_append, readSequence, if_neg (by rw [hrest.startsElement]; nofun)]
      rfl
  | cons ts ts' rule rules hrule hothers =>
      have hpos := hrule.length_pos
      rw [List.length_append] at hfuel
      have hends : EndsElement (ts' ++ rest) := by
        cases hothers with
        | nil => exact hrest.endsElement
        | cons front back rule rules hrule _ =>
            rw [List.append_assoc]
            exact endsElement_of_startsElement (hrule.startsElement _)
      rw [List.append_assoc, readSequence, if_pos (hrule.startsElement _),
        h.element _ _ _ hrule hends (by omega)]
      change (readSequence fuel (ts' ++ rest) >>= _) = _
      rw [h.sequence _ _ _ hothers hrest (by omega)]
      rfl

theorem readElement_succ (h : ReadsAll fuel) (hts : IsElement ts rule) (hrest : EndsElement rest)
    (hfuel : 5 * ts.length + 3 ≤ fuel + 1) :
    readElement (fuel + 1) (ts ++ rest) = .ok (rule, rest) := by
  cases hts with
  | plain ts rule hrule =>
      rw [readElement.eq_def]
      simp only
      split
      · rename_i name behind heq
        exact absurd heq (hrule.ne_field hrest name behind)
      · exact h.postfixed _ _ _ hrule hrest (by omega)
  | field name ts rule hrule =>
      simp only [List.length_cons] at hfuel
      rw [List.cons_append, List.cons_append, readElement, h.postfixed _ _ _ hrule hrest (by omega)]

theorem readPostfix_succ (h : ReadsAll fuel) (hts : IsPostfix ts rule) (hrest : EndsElement rest)
    (hfuel : 5 * ts.length + 2 ≤ fuel + 1) :
    readPostfix (fuel + 1) (ts ++ rest) = .ok (rule, rest) := by
  obtain ⟨ts, rule, operators, hatom⟩ := hts
  rw [List.length_append] at hfuel
  rw [List.append_assoc, readPostfix, h.atom _ _ _ hatom (by omega)]
  exact congrArg Except.ok (readOperators_append rule operators hrest)

theorem readAtom_succ (h : ReadsAll fuel) (hts : IsAtom ts rule)
    (hfuel : 5 * ts.length + 1 ≤ fuel + 1) : readAtom (fuel + 1) (ts ++ rest) = .ok (rule, rest) := by
  cases hts with
  | literal | pattern => rfl
  | name name hname =>
      rw [List.singleton_append, readAtom, Builtin.ofName?_eq_none_iff.2 hname]
  | group ts rule hbody =>
      obtain ⟨rules, hrules, rfl⟩ := isBody_iff.1 hbody
      simp only [List.length_cons, List.length_append] at hfuel
      rw [List.cons_append, List.append_assoc, List.singleton_append, readAtom,
        h.alternatives _ _ _ hrules endsBody_rparen (by omega)]
      rfl
  | call name level ts body rule hbody hcall =>
      obtain ⟨rules, hrules, rfl⟩ := isBody_iff.1 hbody
      obtain ⟨builtin, hname⟩ := Option.ne_none_iff_exists'.1
        (mt Builtin.ofName?_eq_none_iff.1 (not_not_intro hcall.mem_builtinNames))
      have happly := (Builtin.apply_eq_some_iff hname).2 hcall
      simp only [List.length_cons, List.length_append] at hfuel
      rw [List.cons_append, List.cons_append, List.append_assoc, List.append_assoc,
        List.singleton_append, readAtom, hname]
      have hlevel := readLevel_append hrules level rest
      have hread := h.alternatives _ _ (.rparen :: rest) hrules endsBody_rparen (by omega)
      simp [bind, Except.bind, pure, Except.pure, Reader.expect, hlevel, hread, happly]

end ReadsAll

theorem readsAll (fuel : Nat) : ReadsAll fuel := by
  induction fuel with
  | zero => exact ⟨nofun, nofun, nofun, nofun, nofun⟩
  | succ fuel ih =>
      exact ⟨fun _ _ _ => ih.readAlternatives_succ, fun _ _ _ => ih.readSequence_succ,
        fun _ _ _ => ih.readElement_succ, fun _ _ _ => ih.readPostfix_succ,
        fun _ _ _ => ih.readAtom_succ⟩

/-! ### Files -/

theorem Arg.ofToken?_eq_some_iff {t : Token} {arg : Arg} : Arg.ofToken? t = some arg ↔ t = arg.token := by
  constructor
  · intro h
    cases t <;> cases h <;> rfl
  · rintro rfl
    cases arg <;> rfl

theorem readArgs_spec (ts : List Token) : ts = (readArgs ts).1.map (·.token) ++ (readArgs ts).2 := by
  induction ts with
  | nil => rfl
  | cons t ts ih =>
      rw [readArgs]
      split
      · rename_i arg harg
        rw [Arg.ofToken?_eq_some_iff.1 harg]
        exact congrArg _ ih
      · rfl

theorem readArgs_append (args : List Arg) (rest : List Token) :
    readArgs (args.map (·.token) ++ .semi :: rest) = (args, .semi :: rest) := by
  induction args with
  | nil => rfl
  | cons arg args ih =>
      rw [List.map_cons, List.cons_append, readArgs, Arg.ofToken?_eq_some_iff.2 rfl]
      simp only [ih]

theorem isBody_of_readBody {ts rest : List Token} {body : Rule} (h : readBody ts = .ok (body, rest)) :
    ∃ front, ts = front ++ rest ∧ IsBody front body := by
  obtain ⟨⟨rules, behind⟩, hrules, hends⟩ := exists_of_bind_eq_ok h
  cases hends
  obtain ⟨front, hfront, halternatives⟩ := (readsSoundly _).alternatives _ _ _ hrules
  exact ⟨front, hfront, isBody_iff.2 ⟨rules, halternatives, rfl⟩⟩

theorem readBody_append {ts rest : List Token} {body : Rule} (h : IsBody ts body)
    (hrest : EndsBody rest) : readBody (ts ++ rest) = .ok (body, rest) := by
  obtain ⟨rules, hrules, rfl⟩ := isBody_iff.1 h
  have hfuel : 5 * ts.length + 5 ≤ bodyFuel (ts ++ rest) := by
    rw [bodyFuel, List.length_append]
    omega
  unfold readBody
  rw [(readsAll _).alternatives _ _ _ hrules hrest hfuel]
  rfl

/-- A declaration that is read is one of the notation. -/
theorem declares_of_readItem {ts rest : List Token} {item : Item} {items : List Item}
    (h : readItem ts = .ok (item, rest)) (hrest : Declares rest items) : Declares ts (item :: items) := by
  unfold readItem at h
  split at h
  · rename_i name ts
    obtain ⟨⟨_, behind⟩, hsemi, hends⟩ := exists_of_bind_eq_ok h
    cases hends
    have hts : ts = (readArgs ts).1.map (·.token) ++ .semi :: rest := by
      rw [← expect_eq_ok hsemi]
      exact readArgs_spec ts
    have hlength : ts.length + 1 = (readArgs ts).1.length + rest.length + 2 := by
      rw [hts]
      simp only [List.length_append, List.length_map, List.length_cons]
      rw [← hts]
      omega
    rw [hlength]
    conv => arg 1; rw [hts]
    exact .directive name _ rest items hrest
  · rename_i name ts
    obtain ⟨⟨_, behind⟩, harrow, hnext⟩ := exists_of_bind_eq_ok h
    obtain ⟨⟨body, last⟩, hbody, hlast⟩ := exists_of_bind_eq_ok hnext
    obtain ⟨⟨_, end'⟩, hsemi, hends⟩ := exists_of_bind_eq_ok hlast
    cases hends
    obtain rfl := expect_eq_ok harrow
    obtain ⟨front, hfront, hisBody⟩ := isBody_of_readBody hbody
    obtain rfl : behind = front ++ .semi :: rest := by
      rw [← expect_eq_ok hsemi]
      exact hfront
    exact .rule name front rest body items hisBody hrest
  · cases h

theorem declares_of_readItems {fuel : Nat} {ts : List Token} {items : List Item}
    (h : readItems fuel ts = .ok items) : Declares ts items := by
  induction fuel generalizing ts items with
  | zero =>
      cases ts with
      | nil =>
          cases h
          exact .nil
      | cons => cases h
  | succ fuel ih =>
      cases ts with
      | nil =>
          cases h
          exact .nil
      | cons t ts =>
          rw [readItems] at h
          · obtain ⟨⟨item, rest⟩, hitem, hnext⟩ := exists_of_bind_eq_ok h
            obtain ⟨others, hothers, hends⟩ := exists_of_bind_eq_ok hnext
            cases hends
            exact declares_of_readItem hitem (ih hothers)
          · exact List.cons_ne_nil _ _

theorem readItems_of_readItem {t : Token} {ts rest : List Token} {item : Item} {items : List Item}
    {fuel : Nat} (hfuel : (t :: ts).length ≤ fuel) (hitem : readItem (t :: ts) = .ok (item, rest))
    (hrest : ∀ fuel, ts.length ≤ fuel → readItems fuel rest = .ok items) :
    readItems fuel (t :: ts) = .ok (item :: items) := by
  cases fuel with
  | zero => cases hfuel
  | succ fuel =>
      rw [readItems, hitem]
      · change (readItems fuel rest >>= _) = _
        rw [hrest fuel (Nat.le_of_succ_le_succ hfuel)]
        rfl
      · exact List.cons_ne_nil _ _

/-- All declarations of the notation are read. -/
theorem readItems_of_declares {ts : List Token} {items : List Item} (h : Declares ts items) {fuel : Nat}
    (hfuel : ts.length ≤ fuel) : readItems fuel ts = .ok items := by
  induction h generalizing fuel with
  | nil => cases fuel <;> rfl
  | rule name ts rest body items hbody _ ih =>
      refine readItems_of_readItem hfuel ?_ fun fuel hle => ih ?_
      · change (readBody (ts ++ .semi :: rest) >>= _) = _
        rw [readBody_append hbody endsBody_semi]
        rfl
      · simp only [List.length_cons, List.length_append] at hle
        omega
  | directive name args rest items _ ih =>
      refine readItems_of_readItem hfuel ?_ fun fuel hle => ih ?_
      · unfold readItem
        simp only [readArgs_append, List.length_append, List.length_map, List.length_cons]
        rfl
      · simp only [List.length_cons, List.length_append] at hle
        omega

/-- The reader gives the declarations of a file exactly where its tokens are of the notation, and they
can be read in one way at most. -/
theorem readItems_eq_ok_iff (ts : List Token) :
    (∀ items, readItems (ts.length + 1) ts = .ok items ↔ Declares ts items) ∧
      { items | Declares ts items }.Subsingleton := by
  have hiff : ∀ items, readItems (ts.length + 1) ts = .ok items ↔ Declares ts items := fun _ =>
    ⟨declares_of_readItems, fun h => readItems_of_declares h (Nat.le_succ _)⟩
  refine ⟨hiff, fun items h items' h' => ?_⟩
  exact Except.ok.inj (((hiff items).2 h).symm.trans ((hiff items').2 h'))

end IncrementalLR.GrammarText
