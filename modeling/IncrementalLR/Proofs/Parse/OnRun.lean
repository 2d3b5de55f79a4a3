import IncrementalLR.Proofs.Parse.Forks
import IncrementalLR.Proofs.Parse.Weight

/-!
# Versions on runs

Where the lexer gives one and the same token at a place in every mode in which it is asked there, the
versions of a parse are on runs over these tokens: the states of the stack are those to which the run
leads, and the stack weighs what the run collects.
-/

namespace IncrementalLR

namespace Lexed

def bytes (t : Lexed) : Nat := t.padding.bytes + t.size.bytes

/-- The same symbol over as many bytes. -/
structure Same (a b : Lexed) : Prop where
  symbol : a.symbol = b.symbol
  bytes : a.bytes = b.bytes

/-- The tokens from a place on, if one of them begins there. -/
def behind : List Lexed → Nat → List Lexed
  | [], _ => []
  | t :: rest, position =>
    if position = 0 then t :: rest
    else if position < t.bytes then []
    else behind rest (position - t.bytes)

variable {tokens rest : List Lexed} {t : Lexed} {position : Nat}

theorem behind_zero (tokens : List Lexed) : behind tokens 0 = tokens := by
  cases tokens with
  | nil => rfl
  | cons t rest => rw [behind, if_pos rfl]

theorem behind_suffix (tokens : List Lexed) (position : Nat) : behind tokens position <:+ tokens := by
  fun_induction behind tokens position with
  | case1 => exact List.suffix_refl _
  | case2 t rest => exact List.suffix_refl _
  | case3 t rest position => exact List.nil_suffix
  | case4 t rest position _ _ ih => exact ih.trans (List.suffix_cons t rest)

theorem behind_add (h : behind tokens position = t :: rest) (hpos : 0 < t.bytes) :
    behind tokens (position + t.bytes) = rest := by
  fun_induction behind tokens position with
  | case1 => cases h
  | case2 u others =>
      cases h
      rw [behind, if_neg (by omega), if_neg (by omega), Nat.zero_add, Nat.sub_self, behind_zero]
  | case3 => cases h
  | case4 u others position hne hle ih =>
      rw [behind, if_neg (by omega), if_neg (by omega), Nat.sub_add_comm (Nat.le_of_not_lt hle)]
      exact ih h

end Lexed

namespace Table

/-- No run over the input collects more or less than 32 bits hold. -/
def TotalsFit (t : Table) (input : List Symbol) : Prop :=
  ∀ total states rest, t.Runs [t.startState] input total states rest →
    -2 ^ 31 < total ∧ total < 2 ^ 31

/-- The states of a stack tell where extras are: there are none, or no state leads to itself. -/
def ShowsExtras (t : Table) (input : List Symbol) : Prop :=
  (∀ x ∈ input, (t.symbolInfo x).extra = false) ∨ ∀ q, ¬ t.Enters q q

end Table

namespace ParseSetting

/-- The text from a place on, token by token up to the end of input, each as the lexer gives it in
some mode. -/
inductive Tokenizes (setting : ParseSetting) : Nat → List Lexed → Prop
  | eof (position : Nat) (mode : LexMode)
      (heof : (setting.language.lex setting.text position mode).symbol = Symbol.eof) :
      Tokenizes setting position [setting.language.lex setting.text position mode]
  | token (position : Nat) (mode : LexMode) (rest : List Lexed)
      (hne : (setting.language.lex setting.text position mode).symbol ≠ Symbol.eof)
      (hrest : Tokenizes setting
        (position + (setting.language.lex setting.text position mode).bytes) rest) :
      Tokenizes setting position (setting.language.lex setting.text position mode :: rest)

/-- The end of input is the last token and no other. -/
theorem Tokenizes.eq_nil_iff {setting : ParseSetting} {position : Nat} {tokens rest : List Lexed}
    {t : Lexed} (h : setting.Tokenizes position tokens) (hsuffix : t :: rest <:+ tokens) :
    rest = [] ↔ t.symbol = Symbol.eof := by
  induction h with
  | eof position mode heof =>
      rcases List.suffix_cons_iff.1 hsuffix with heq | hsuffix
      · cases heq
        exact ⟨fun _ => heof, fun _ => rfl⟩
      · cases List.suffix_nil.1 hsuffix
  | token position mode others hne hrest ih =>
      rcases List.suffix_cons_iff.1 hsuffix with heq | hsuffix
      · cases heq
        refine ⟨fun hnil => ?_, fun heof => absurd heof hne⟩
        subst hnil
        cases hrest
      · exact ih hsuffix

/-- What is known of the table and the tokens of a parse. -/
structure Reading (setting : ParseSetting) (g : Grammar) (policy : ConflictPolicy)
    (tokens : List Lexed) : Prop where
  wellFormed : setting.WellFormed
  compiled : setting.CompiledFrom g policy
  even : g.RepeatsEvenly
  tokenizes : setting.Tokenizes 0 tokens
  eof : (setting.table.symbolInfo Symbol.eof).extra = false
  totals : setting.table.TotalsFit (tokens.map (·.symbol))
  extras : setting.table.ShowsExtras (tokens.map (·.symbol))

end ParseSetting

/-- The version is where a run over the tokens is, and its lookahead is the token there. -/
structure Version.OnRun (setting : ParseSetting) (tokens : List Lexed) (v : Version) : Prop where
  reached : setting.Reached none v
  plain : v.stack.Plain setting.table
  run : setting.table.Runs [setting.table.startState] (tokens.map (·.symbol))
    v.stack.dynamicPrecedence.toInt v.stack.structuralStates
    ((Lexed.behind tokens v.position.bytes).map (·.symbol))
  inside : Lexed.behind tokens v.position.bytes ≠ []
  lookahead : ∀ t ∈ v.lookahead, ∃ token rest, Lexed.behind tokens v.position.bytes = token :: rest ∧
    t.symbol = token.symbol ∧ t.total.bytes = token.bytes
  parts : (∀ x ∈ tokens.map (·.symbol), (setting.table.symbolInfo x).extra = false) →
    ∀ t ∈ v.stack.trees, t.isStructural = true

/-- The version from which this comes is at the end of a run that accepts. -/
def Accepted.OnRun (setting : ParseSetting) (tokens : List Lexed) (a : Accepted) : Prop :=
  ∃ v : Version, v.OnRun setting tokens ∧ a = v.accepted ∧ ∃ t, v.lookahead = some t ∧
    .accept ∈ setting.table.actionList v.stack.state t.symbol

def Thread.OnRun (setting : ParseSetting) (tokens : List Lexed) : Thread → Prop
  | .going v => v.OnRun setting tokens
  | .ended a => a.OnRun setting tokens

/-- From the version a run can accept with at least this total, or it has come to as much. -/
def Thread.Reaches (table : Table) (tokens : List Lexed) (total : Int) : Thread → Prop
  | .going v => ∃ rest, table.Finishes v.stack.structuralStates
      ((Lexed.behind tokens v.position.bytes).map (·.symbol)) rest ∧
      total ≤ v.stack.dynamicPrecedence.toInt + rest
  | .ended a => total ≤ a.dynamicPrecedence.toInt

namespace Version.OnRun

variable {g : Grammar} {policy : ConflictPolicy} {setting : ParseSetting} {tokens : List Lexed}
  {v : Version} {t : Subtree} {results : List Thread} {total : Int}

theorem exists_states (hreading : setting.Reading g policy tokens) (h : v.OnRun setting tokens) :
    ∃ below, v.stack.structuralStates = v.stack.state :: below :=
  (hreading.compiled.onPath_of_fresh h.reached).stack.exists_structuralStates

theorem start (hreading : setting.Reading g policy tokens) :
    setting.startVersion.OnRun setting tokens := by
  refine ⟨.start, .base _, ?_, ?_, fun t ht => absurd ht (Option.not_mem_none t),
    fun _ t ht => absurd ht List.not_mem_nil⟩
  · have hbehind : Lexed.behind tokens setting.startVersion.position.bytes = tokens :=
      Lexed.behind_zero tokens
    rw [hbehind]
    exact .refl _ _
  · have hbehind : Lexed.behind tokens setting.startVersion.position.bytes = tokens :=
      Lexed.behind_zero tokens
    rw [hbehind]
    intro hnil
    have htokens := hreading.tokenizes
    rw [hnil] at htokens
    cases htokens

/-- A token that the lexer gives where the version is becomes its lookahead. -/
theorem fetch (h : v.OnRun setting tokens) {mode : LexMode}
    (hlex : setting.Lexes v.position.bytes mode t)
    (hsame : ∀ token rest, Lexed.behind tokens v.position.bytes = token :: rest →
      (setting.language.lex setting.text v.position.bytes mode).Same token) :
    { v with lookahead := some t }.OnRun setting tokens := by
  refine ⟨.move _ _ h.reached (.lex v mode t hlex), h.plain, h.run, h.inside, ?_, h.parts⟩
  intro t' ht'
  obtain rfl := Option.mem_some_iff.1 ht'
  obtain ⟨id, rfl⟩ := hlex
  obtain ⟨token, rest, hbehind⟩ := List.exists_cons_of_ne_nil h.inside
  exact ⟨token, rest, hbehind, (hsame token rest hbehind).symbol, (hsame token rest hbehind).bytes⟩

/-! ### The lookahead -/

theorem extra (h : v.OnRun setting tokens) (ht : v.lookahead = some t) :
    t.flags.extra = (setting.table.symbolInfo t.symbol).extra := by
  obtain ⟨_, _, rfl⟩ := ParseSetting.lexes_of_reached h.reached t ht
  rfl

theorem plain_lookahead (h : v.OnRun setting tokens) (ht : v.lookahead = some t)
    (hne : t.symbol ≠ Symbol.error) : t.Plain setting.table := by
  obtain ⟨_, id, rfl⟩ := ParseSetting.lexes_of_reached h.reached t ht
  exact .ofToken id hne

/-- A token weighs nothing. -/
theorem dynamicPrecedence_push (h : v.OnRun setting tokens) (ht : v.lookahead = some t)
    (state : StateId) : (v.stack.push state t false).dynamicPrecedence = v.stack.dynamicPrecedence := by
  obtain ⟨_, _, rfl⟩ := ParseSetting.lexes_of_reached h.reached t ht
  exact Int32.add_zero _

theorem mem_tokens (h : v.OnRun setting tokens) (ht : v.lookahead = some t) :
    t.symbol ∈ tokens.map (·.symbol) := by
  obtain ⟨token, rest, hbehind, hsymbol, _⟩ := h.lookahead t ht
  have hsuffix := Lexed.behind_suffix tokens v.position.bytes
  rw [hbehind] at hsuffix
  rw [hsymbol]
  exact List.mem_map_of_mem (hsuffix.subset List.mem_cons_self)

theorem exists_input (h : v.OnRun setting tokens) (ht : v.lookahead = some t) :
    ∃ rest, (Lexed.behind tokens v.position.bytes).map (·.symbol) = t.symbol :: rest := by
  obtain ⟨token, rest, hbehind, hsymbol, _⟩ := h.lookahead t ht
  rw [hbehind, hsymbol]
  exact ⟨_, rfl⟩

/-- Behind a lookahead that is not the end of input is the rest of the tokens. -/
theorem behind_lookahead (hreading : setting.Reading g policy tokens) (h : v.OnRun setting tokens)
    (ht : v.lookahead = some t) (hne : t.symbol ≠ Symbol.eof) :
    Lexed.behind tokens (v.position + t.total).bytes ≠ [] ∧
      (Lexed.behind tokens v.position.bytes).map (·.symbol)
        = t.symbol :: (Lexed.behind tokens (v.position + t.total).bytes).map (·.symbol) := by
  obtain ⟨token, rest, hbehind, hsymbol, hbytes⟩ := h.lookahead t ht
  have hpos := ParseSetting.total_pos_of_reached hreading.wellFormed h.reached ht hne
  have hsuffix := Lexed.behind_suffix tokens v.position.bytes
  rw [hbehind] at hsuffix
  rw [Length.bytes_add, hbytes, Lexed.behind_add hbehind (hbytes ▸ hpos), hbehind, hsymbol]
  refine ⟨fun hnil => hne ?_, rfl⟩
  rw [hsymbol]
  exact (hreading.tokenizes.eq_nil_iff hsuffix).1 hnil

/-- A token for which there is a shift is a part that is not the end of input. -/
theorem of_shift (hreading : setting.Reading g policy tokens) (h : v.OnRun setting tokens)
    (ht : v.lookahead = some t) {next : StateId}
    (haction : .shift next ∈ setting.table.actionList v.stack.state t.symbol) :
    t.symbol ≠ Symbol.eof ∧ t.symbol ≠ Symbol.error ∧ t.isStructural = true := by
  have hleaf := (ParseSetting.isFresh_of_reached h.reached).lookahead t ht
  have hhas := hreading.compiled.has_of_actsOn (hreading.compiled.onPath_of_fresh h.reached)
    (.token t ht hleaf)
  obtain ⟨_, hextra, herror⟩ := hreading.compiled.step?_of_shift hhas haction
  rw [← h.extra ht] at hextra
  refine ⟨?_, herror, ?_⟩
  · rcases hreading.compiled.action_of_mem h.reached ht haction with ⟨_, _, hne⟩ | ⟨p, hp⟩ | haccept
    · exact hne
    · cases hp
    · cases haccept
  · rw [Subtree.isStructural, hextra]
    exact bne_iff_ne.2 herror

theorem of_accept (hreading : setting.Reading g policy tokens) (h : v.OnRun setting tokens)
    (ht : v.lookahead = some t)
    (haction : .accept ∈ setting.table.actionList v.stack.state t.symbol) : t.symbol = Symbol.eof := by
  obtain ⟨mode, id, rfl⟩ := ParseSetting.lexes_of_reached h.reached t ht
  rcases hreading.compiled.tokens v.position.bytes mode with herror | ⟨hterminal, _⟩
  · rw [show (Subtree.ofToken setting.table id _).symbol = Symbol.error from herror] at haction
    cases haction
  · exact hreading.wellFormed.accept v.stack.state _ hterminal haction

theorem of_extra (hreading : setting.Reading g policy tokens) (h : v.OnRun setting tokens)
    (ht : v.lookahead = some t) (hextra : t.flags.extra = true) :
    t.symbol ≠ Symbol.eof ∧ t.isStructural = false := by
  constructor
  · intro heof
    have hinfo := (h.extra ht).symm.trans hextra
    rw [heof, hreading.eof] at hinfo
    cases hinfo
  · rw [Subtree.isStructural, hextra]
    rfl

/-! ### Operations -/

theorem shift (hreading : setting.Reading g policy tokens) (h : v.OnRun setting tokens)
    (ht : v.lookahead = some t) {next : StateId}
    (haction : .shift next ∈ setting.table.actionList v.stack.state t.symbol) :
    (ParseSetting.shiftVersion v next t false).OnRun setting tokens := by
  have hleaf := (ParseSetting.isFresh_of_reached h.reached).lookahead t ht
  obtain ⟨hne, herror, hpart⟩ := h.of_shift hreading ht haction
  obtain ⟨hinside, hinput⟩ := h.behind_lookahead hreading ht hne
  obtain ⟨below, hstates⟩ := h.exists_states hreading
  refine ⟨.move _ _ h.reached (.shift v t next ht hleaf haction),
    .part v.stack next t h.plain (h.plain_lookahead ht herror) hpart ⟨t.symbol, .inl haction⟩, ?_,
    hinside, fun _ h => absurd h (Option.not_mem_none _), fun hnone => ?_⟩
  · have hrun := h.run
    rw [hinput, hstates] at hrun
    rw [ParseSetting.shiftVersion, h.dynamicPrecedence_push ht, Stack.structuralStates_push false hpart,
      hstates]
    exact hrun.tail_shift haction
  · rw [ParseSetting.shiftVersion, Stack.trees_push]
    exact List.forall_mem_append.2 ⟨h.parts hnone, List.forall_mem_singleton.2 hpart⟩

/-- An extra is passed over. -/
theorem skip (hreading : setting.Reading g policy tokens) (h : v.OnRun setting tokens)
    (ht : v.lookahead = some t)
    (hnone : setting.table.actionList v.stack.state t.symbol = []) (hextra : t.flags.extra = true) :
    (ParseSetting.shiftVersion v v.stack.state t false).OnRun setting tokens := by
  have hleaf := (ParseSetting.isFresh_of_reached h.reached).lookahead t ht
  have hinfo := (h.extra ht).symm.trans hextra
  have herror : t.symbol ≠ Symbol.error := by
    intro herror
    rw [herror] at hinfo
    cases hinfo
  obtain ⟨hne, hother⟩ := h.of_extra hreading ht hextra
  obtain ⟨hinside, hinput⟩ := h.behind_lookahead hreading ht hne
  obtain ⟨below, hstates⟩ := h.exists_states hreading
  refine ⟨.move _ _ h.reached (.shiftExtra v t ht hleaf hextra hnone),
    .extra v.stack t h.plain (h.plain_lookahead ht herror) hother, ?_,
    hinside, fun _ h => absurd h (Option.not_mem_none _), fun hextras => ?_⟩
  · have hrun := h.run
    rw [hinput, hstates] at hrun
    rw [ParseSetting.shiftVersion, h.dynamicPrecedence_push ht,
      Stack.structuralStates_push_other false hother, hstates]
    exact hrun.tail_skip hinfo hnone
  · rw [hextras _ (h.mem_tokens ht)] at hinfo
    cases hinfo

theorem structuralStates_reduce (hreading : setting.Reading g policy tokens)
    (h : v.OnRun setting tokens) (ht : v.lookahead = some t) {p : ProductionId}
    (haction : .reduce p ∈ setting.table.actionList v.stack.state t.symbol) (forked : Bool) (id : Nat) :
    Recovery.reduceStates setting.table p v.stack.structuralStates
      = some (setting.reduceStack forked p id v.stack).1.structuralStates := by
  have hleaf := (ParseSetting.isFresh_of_reached h.reached).lookahead t ht
  have hpath := hreading.compiled.onPath_of_fresh h.reached
  obtain ⟨hfrom, _⟩ := Table.compile_eq_ok hreading.compiled.table
  exact ParseSetting.reduceStates_structuralStates hreading.compiled.grammar hfrom hpath.stack
    (hreading.compiled.reduces hpath (.token t ht hleaf) haction) forked id

/-- A reduction adds the dynamic precedence of its production. -/
theorem reduce (hreading : setting.Reading g policy tokens) (h : v.OnRun setting tokens)
    (ht : v.lookahead = some t) {p : ProductionId}
    (haction : .reduce p ∈ setting.table.actionList v.stack.state t.symbol) (forked : Bool) (id : Nat) :
    { v with stack := (setting.reduceStack forked p id v.stack).1 }.OnRun setting tokens ∧
      (setting.reduceStack forked p id v.stack).1.dynamicPrecedence.toInt
        = v.stack.dynamicPrecedence.toInt + (setting.table.production p).dynamicPrecedence.toInt := by
  have hleaf := (ParseSetting.isFresh_of_reached h.reached).lookahead t ht
  have hpath := hreading.compiled.onPath_of_fresh h.reached
  obtain ⟨hfrom, _⟩ := Table.compile_eq_ok hreading.compiled.table
  have hreduces := hreading.compiled.reduces hpath (.token t ht hleaf) haction
  have hlhs := Table.lhs_ne_error hreading.compiled.grammar hfrom hreduces.lt
  have hafter := h.structuralStates_reduce hreading ht haction forked id
  obtain ⟨hplain, hweight⟩ := ParseSetting.plain_reduceStack
    (hreading.compiled.fitTable.keepWeight hfrom hreading.even) h.plain hreduces hlhs forked id
  obtain ⟨below, hstates⟩ := h.exists_states hreading
  obtain ⟨input, hinput⟩ := h.exists_input ht
  have hrun := h.run
  rw [hinput, hstates] at hrun
  rw [hstates] at hafter
  have hreduced := hrun.tail_reduce haction hafter
  have htotal : (setting.reduceStack forked p id v.stack).1.dynamicPrecedence.toInt
      = v.stack.dynamicPrecedence.toInt + (setting.table.production p).dynamicPrecedence.toInt := by
    obtain ⟨hlow, hhigh⟩ := hreading.totals _ _ _ hreduced
    rw [hweight, Int32.toInt_add]
    exact Int.bmod_eq_of_le (by omega) (by omega)
  refine ⟨⟨.move _ _ h.reached (.reduce v t.symbol p forked id (.token t ht hleaf) haction), hplain, ?_,
    h.inside, h.lookahead, fun hnone => ?_⟩, htotal⟩
  · rw [htotal, hinput]
    exact hreduced
  · exact ParseSetting.structural_reduceStack hreduces hlhs (h.parts hnone) forked id

/-- All that an operation makes of a version on a run is on runs. -/
theorem continues (hreading : setting.Reading g policy tokens) (h : v.OnRun setting tokens)
    (ht : v.lookahead = some t) (hcontinues : setting.Continues v t results) :
    ∀ r ∈ results, r.OnRun setting tokens := by
  cases hcontinues with
  | act _ hmakes =>
      intro r hr
      obtain ⟨action, haction, hmakes⟩ := (ParseSetting.exists_makes hmakes).2 r hr
      cases hmakes with
      | shift next => exact h.shift hreading ht haction
      | reduce p forked id => exact (h.reduce hreading ht haction forked id).1
      | accept => exact ⟨v, h, rfl, t, ht, haction⟩
  | skip hnone hextra => exact List.forall_mem_singleton.2 (h.skip hreading ht hnone hextra)
  | drop => exact fun _ hr => absurd hr List.not_mem_nil

/-- However a run that accepts goes on, an operation takes a version there. -/
theorem exists_reaches (hreading : setting.Reading g policy tokens) (h : v.OnRun setting tokens)
    (ht : v.lookahead = some t) (hcontinues : setting.Continues v t results)
    (hreaches : (Thread.going v).Reaches setting.table tokens total) :
    ∃ r ∈ results, r.Reaches setting.table tokens total := by
  obtain ⟨rest, hfinishes, hle⟩ := hreaches
  obtain ⟨below, hstates⟩ := h.exists_states hreading
  obtain ⟨input, hinput⟩ := h.exists_input ht
  rw [hstates, hinput] at hfinishes
  cases hfinishes.goes with
  | accept haction _ htotal =>
      obtain ⟨r, hr, hmakes⟩ := hcontinues.exists_makes haction
      cases hmakes
      rw [htotal, Int.add_zero] at hle
      exact ⟨_, hr, hle⟩
  | shift next haction hnext =>
      obtain ⟨r, hr, hmakes⟩ := hcontinues.exists_makes haction
      cases hmakes
      obtain ⟨hne, _, hpart⟩ := h.of_shift hreading ht haction
      obtain ⟨_, hbehind⟩ := h.behind_lookahead hreading ht hne
      refine ⟨_, hr, rest, ?_, ?_⟩
      · rw [hinput, List.cons.injEq] at hbehind
        rw [ParseSetting.shiftVersion, Stack.structuralStates_push false hpart, hstates, ← hbehind.2]
        exact hnext
      · rw [ParseSetting.shiftVersion, h.dynamicPrecedence_push ht]
        exact hle
  | reduce p after rest' haction hafter htotal hnext =>
      obtain ⟨r, hr, hmakes⟩ := hcontinues.exists_makes haction
      cases hmakes with
      | reduce _ forked id =>
          obtain ⟨_, hweight⟩ := h.reduce hreading ht haction forked id
          have hstates' := h.structuralStates_reduce hreading ht haction forked id
          rw [hstates, hafter, Option.some.injEq] at hstates'
          refine ⟨_, hr, rest', ?_, ?_⟩
          · rw [hinput, ← hstates']
            exact hnext
          · rw [hweight, Int.add_assoc, ← htotal]
            exact hle
  | skip hextra hnone hnext =>
      rw [← h.extra ht] at hextra
      cases hcontinues with
      | act _ _ hsome => exact absurd hnone hsome
      | drop _ hplain => exact absurd (hplain.symm.trans hextra) Bool.false_ne_true
      | skip =>
          refine ⟨_, List.mem_singleton_self _, rest, ?_, ?_⟩
          · obtain ⟨hne, hother⟩ := h.of_extra hreading ht hextra
            obtain ⟨_, hbehind⟩ := h.behind_lookahead hreading ht hne
            rw [hinput, List.cons.injEq] at hbehind
            rw [ParseSetting.shiftVersion, Stack.structuralStates_push_other false hother, hstates,
              ← hbehind.2]
            exact hnext
          · rw [ParseSetting.shiftVersion, h.dynamicPrecedence_push ht]
            exact hle

end Version.OnRun

end IncrementalLR
