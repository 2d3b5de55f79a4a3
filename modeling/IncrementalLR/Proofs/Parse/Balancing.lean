import IncrementalLR.Proofs.Parse.Building
import IncrementalLR.Proofs.Tree.Balance

/-!
# Balancing in parses

The engine balances subtrees that it takes from the stack of a version. Those were built over the
productions of the language, whatever was reused and recovered on the way, so balancing them keeps how
they look and flattens their repetitions.
-/

namespace IncrementalLR

open KernelFollows (states)
open Subtree (LooksLike balance nesting links chainEnd)

variable {d : GrammarDef} {policy : ConflictPolicy} {l : Language} {p : Parser} {old : Option Tree}
  {scanner : Option ExternalScanner} {number : Nat}

theorem Language.balance_ofTable (hl : Language.load d policy = .ok l)
    (hsize : l.table.productions.size ≤ 2 ^ 32) :
    (RepetitionBases.ofTable l.table).Balance l.table := by
  obtain ⟨g, hg, hcompiled⟩ := Language.exists_compiledFrom_of_load hl
  obtain ⟨hfrom, _⟩ := Table.compile_eq_ok hcompiled.table
  refine RepetitionBases.FitTable.balance ⟨rfl, hsize, fun info hinfo => ?_⟩ hfrom hg
  rw [hfrom.productions] at hinfo
  obtain ⟨production, hproduction, rfl⟩ := Array.mem_map.1 hinfo
  rw [Table.isTerminal, hfrom.terminalCount, decide_eq_false_iff_not, Nat.not_lt]
  exact (hcompiled.grammar.lhs production hproduction).1

/-- Every subtree on the stack of a version, and so every one that a reduction or the root takes from
there to balance it, looks the same when it is balanced, and its repetition nests no deeper than the
logarithm of the number of its parts, apart from its last node. -/
theorem Parser.looksLike_balance (hl : Language.load d policy = .ok l)
    (hsize : l.table.productions.size ≤ 2 ^ 32)
    (hp : p.language = { l with scanner := scanner, id := number })
    (hbases : p.bases = RepetitionBases.ofTable l.table)
    (hold : ∀ tree ∈ old, tree.language.isSame p.language = true → tree.Made p.language)
    (text : ByteArray) {v : Version} (hv : (p.setting text).Reached (p.cursor? old) v) {t : Subtree}
    (ht : t ∈ v.stack.trees) (id : Nat) :
    LooksLike l.table (balance l.table p.bases id t).1 t ∧
      nesting p.bases (balance l.table p.bases id t).1
        ≤ Nat.clog 2 (links p.bases t + 1) + nesting p.bases (chainEnd p.bases t) := by
  have hbalance := Language.balance_ofTable hl hsize
  have htable := Parser.table_setting hp text
  have hfits : Language.ProductionsFit { l with scanner := scanner, id := number } l.table.HasLhs :=
    ⟨fun _ => rfl, hbalance.keep⟩
  have hcursor : ∀ start ∈ p.cursor? old, ∀ t ∈ start.rest, t.Aged l.table l.table.HasLhs :=
    Parser.aged_cursor? fun tree htree hsame => (hp ▸ hold tree htree hsame).aged hfits
  have hbuilt := ParseSetting.built_of_reached (Parser.setting_productionsFit hfits hp hbases text)
    (htable ▸ hcursor) hv
  rw [htable] at hbuilt
  rw [hbases]
  exact Subtree.balance_spec hbalance id (hbuilt.stack t ht)

/-! ### A chain of tokens -/

theorem states_repeatedToken : states Grammar.repeatedToken
    = ⟨#[[⟨0, 0⟩], [⟨4, 1⟩], [⟨0, 1⟩], [⟨1, 1⟩, ⟨3, 1⟩], [⟨3, 2⟩]],
      #[[(⟨1⟩, 1), (⟨3⟩, 2), (⟨4⟩, 3)], [], [], [(⟨1⟩, 4)], []]⟩ := by
  have hmoves₀ : Lr0.moves .repeatedToken Grammar.repeatedToken.productionsByLhs [⟨0, 0⟩]
      = [(⟨1⟩, [⟨4, 1⟩]), (⟨3⟩, [⟨0, 1⟩]), (⟨4⟩, [⟨1, 1⟩, ⟨3, 1⟩])] := by decide
  have hmoves₃ : Lr0.moves .repeatedToken Grammar.repeatedToken.productionsByLhs [⟨1, 1⟩, ⟨3, 1⟩]
      = [(⟨1⟩, [⟨3, 2⟩])] := by decide
  have hends : ∀ item ∈ [(⟨4, 1⟩ : Item), ⟨0, 1⟩, ⟨3, 2⟩],
      Lr0.moves .repeatedToken Grammar.repeatedToken.productionsByLhs [item] = [] := by decide
  have hcount : Lr0.itemCount .repeatedToken = 10 := by decide
  simp [states, Lr0.ofGrammar, hmoves₀, hmoves₃, hends, hcount, Lr0.Builder.run,
    Lr0.startKernel, Lr0.Builder.addTransitions, Lr0.Builder.addState]

def Table.repeatedToken : Table :=
  { name := "repeated"
    symbols := Grammar.repeatedToken.symbols
    terminalCount := 2
    startSymbol := ⟨3⟩
    fields := #[]
    productions := Grammar.repeatedToken.productions.map Compile.productionInfo
    stateCount := 5
    actions := #[.reduce 2, .shift 1, .error, .goto 2, .goto 3, .reduce 4, .reduce 4, .error, .error,
      .error, .accept, .error, .error, .error, .error, .reduce 1, .shift 4, .error, .error, .error,
      .reduce 3, .reduce 3, .error, .error, .error]
    ambigs := #[]
    fragile := []
    breakdown := []
    lexModes := #[#[⟨0⟩, ⟨1⟩], #[⟨0⟩]]
    stateModes := #[0, 0, 1, 0, 0]
    lexical := { tokens := #[⟨⟨1⟩, "x", false⟩] }
    extras := #[]
    externals := #[]
    resolutions := #[]
    kernels := #[#[⟨0, 0⟩], #[⟨4, 1⟩], #[⟨0, 1⟩], #[⟨1, 1⟩, ⟨3, 1⟩], #[⟨3, 2⟩]]
    startState := 0 }

theorem compile_repeatedToken : Table.compile .repeatedToken .strict = .ok .repeatedToken := by
  have hbuilt : (match Compile.buildRows (LookaheadTables.ofGrammar .repeatedToken)
      (states .repeatedToken) .strict with
    | .ok rows => rows.actions == Table.repeatedToken.actions && rows.ambigs == #[] &&
        rows.fragile == [] && rows.breakdown == [] && rows.resolutions == []
    | .error _ => false) = true := by
    rw [states_repeatedToken]
    decide +kernel
  have hmodes : Compile.lexModes .repeatedToken Table.repeatedToken.actions 5
      = (Table.repeatedToken.lexModes, Table.repeatedToken.stateModes) := by
    simp +decide [Compile.lexModes, Grammar.repeatedToken, List.range_succ, Table.repeatedToken,
      SymbolSet.ofList, Symbol.ofIndex, Symbol.index, Std.HashMap.getElem_insert]
  split at hbuilt
  · rename_i rows hrows
    simp only [Bool.and_eq_true, beq_iff_eq] at hbuilt
    obtain ⟨⟨⟨⟨hactions, hambigs⟩, hfragile⟩, hbreakdown⟩, hresolutions⟩ := hbuilt
    have hstates : Lr0.ofGrammar .repeatedToken = _ := states_repeatedToken
    rw [Table.compile]
    simp only [hrows, bind, Except.bind, hactions, hambigs, hfragile, hbreakdown, hresolutions]
    rw [hstates, show Array.size #[[(⟨0, 0⟩ : Item)], [⟨4, 1⟩], [⟨0, 1⟩], [⟨1, 1⟩, ⟨3, 1⟩], [⟨3, 2⟩]] = 5
      from rfl, hmodes]
    refine congrArg Except.ok ?_
    decide +kernel
  · cases hbuilt

theorem entriesFit_repeatedToken : Table.repeatedToken.EntriesFit :=
  ⟨⟨by decide +kernel, by decide +kernel⟩, by decide +kernel⟩

/-- A version with a missing token that was put in and reduced. -/
def ParseSetting.putIn (setting : ParseSetting) (s : Symbol) (next : StateId) (i : ProductionId)
    (v : Version) : Version :=
  let missing := Subtree.ofMissing setting.table 0 s (setting.table.lexMode v.stack.state)
  { v with stack := (setting.reduceStack false i 0 (v.stack.push next missing false)).1 }

theorem ParseSetting.reached_putIn (next : StateId) (i : ProductionId) {setting : ParseSetting}
    {old : Option ReuseCursor} {v : Version} {s : Symbol} (hs : s ∈ Recovery.insertable setting.table)
    (hshift : (setting.table.actionList v.stack.state s).head? = some (.shift next))
    (hreduce : .reduce i ∈ setting.table.actionList next s) (hv : setting.Reached old v) :
    setting.Reached old (setting.putIn s next i v) :=
  .move _ _ (.move _ _ hv (.missing v s next 0 hs hshift))
    (.reduce _ s i false 0 (.missing s hs) hreduce)

/-- Four tokens that are missing make a chain of three links. -/
theorem looksLike_balance_repeatedToken : ∃ l, Language.load .repeatedToken .strict = .ok l ∧
    let p := Parser.ofLanguage { l with scanner := none, id := 1 }
    ∃ v, (p.setting "".toUTF8).Reached (p.cursor? none) v ∧
      v.stack.trees.map (links p.bases) = [3] ∧ ∀ t ∈ v.stack.trees,
        LooksLike l.table (balance l.table p.bases 16 t).1 t ∧
          nesting p.bases (balance l.table p.bases 16 t).1
            ≤ Nat.clog 2 (links p.bases t + 1) + nesting p.bases (chainEnd p.bases t) := by
  obtain ⟨⟨table, _, _, _, _⟩, hl, rfl⟩ :=
    Language.exists_load load_repeatedToken compile_repeatedToken (by decide +kernel)
  refine ⟨_, hl, ?_⟩
  intro p
  have hinsertable : (⟨1⟩ : Symbol) ∈ Recovery.insertable (p.setting "".toUTF8).table :=
    show ⟨1⟩ ∈ Recovery.insertable Table.repeatedToken by decide +kernel
  have hstart : (p.setting "".toUTF8).Reached (p.cursor? none) _ := .start
  have hfirst := ParseSetting.reached_putIn 1 4 hinsertable rfl List.mem_cons_self hstart
  have hsecond := ParseSetting.reached_putIn 4 3 hinsertable (by cbv)
    List.mem_cons_self hfirst
  have hthird := ParseSetting.reached_putIn 4 3 hinsertable (by cbv)
    List.mem_cons_self hsecond
  have hfourth := ParseSetting.reached_putIn 4 3 hinsertable (by cbv)
    List.mem_cons_self hthird
  have hsize : Table.repeatedToken.productions.size ≤ 2 ^ 32 := by decide +kernel
  have hnone : ∀ tree ∈ (none : Option Tree), tree.language.isSame p.language = true →
      tree.Made p.language := fun tree htree => absurd htree (Option.not_mem_none tree)
  exact ⟨_, hfourth, by cbv, fun t ht =>
    Parser.looksLike_balance hl hsize rfl rfl hnone _ hfourth ht 16⟩

end IncrementalLR
