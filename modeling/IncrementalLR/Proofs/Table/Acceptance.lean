import IncrementalLR.Proofs.Table.Driver

/-!
# The language of a table

The driver reads every derivation tree through, item by item, so that the table of a grammar without
conflicts accepts all that the grammar derives, and with the soundness of the driver nothing else.
-/

namespace IncrementalLR

variable {g : Grammar} {t : Table}

open KernelFollows (states final)

/-! ### Moves of the driver -/

theorem drive?_shift (hf : t.Faithful g) {q q' : Nat} {stack : List Nat} {s : Symbol}
    {rest : List Symbol} (hs : g.isTerminal s = true) (hstep : (states g).step? q s = some q') :
    t.drive? ⟨(q :: stack).map Nat.toUInt32, s :: rest⟩
      = some ⟨(q' :: q :: stack).map Nat.toUInt32, rest⟩ := by
  rw [List.map_cons, Table.drive?]
  simp only [hf.shift q q' s hs hstep, List.map_cons]

/-- A reduction pops the states of the right-hand side and goes on from the state below them. -/
theorem drive?_reduce (hg : g.WellFormed) (hf : t.Faithful g) (hfit : t.NumbersFit) {i : Nat}
    {p : Production} (hp : g.productions[i]? = some p) (hi : i ≠ 0) {top q q' : Nat}
    {popped tail stack : List Nat} {x : Symbol} {rest : List Symbol}
    (htop : top < (states g).kernels.size) (hx : g.isTerminal x = true)
    (hcomplete : Compile.Completes g top i x) (hstack : popped ++ q :: stack = top :: tail)
    (hlength : popped.length = p.rhs.length) (hq : q < (states g).kernels.size)
    (hstep : (states g).step? q p.lhs = some q') :
    t.drive? ⟨(popped ++ q :: stack).map Nat.toUInt32, x :: rest⟩
      = some ⟨(q' :: q :: stack).map Nat.toUInt32, x :: rest⟩ := by
  have hmem : p ∈ g.productions := Array.mem_of_getElem? hp
  have hlhs : g.isTerminal p.lhs = false := hg.isTerminal_lhs hp
  have hdrop : ((popped ++ q :: stack).map Nat.toUInt32).drop p.rhs.length
      = (q :: stack).map Nat.toUInt32 := by
    rw [← List.map_drop, ← hlength, List.drop_left]
  have haction := hf.reduce top i x htop hx hcomplete
  rw [Candidates.reduceAction, if_neg hi] at haction
  rw [hstack, List.map_cons, Table.drive?]
  simp only [haction, production_eq hf.compiledFrom hfit hp, size_rhs_productionInfo]
  rw [← List.map_cons, ← hstack, hdrop]
  simp only [List.map_cons, Compile.productionInfo, hf.goto q p.lhs hq hlhs (hg.lhs p hmem).2, hstep,
    Option.map_some]

/-! ### Reading trees through -/

/-- What stands behind the dot is read through: the driver pushes a state for each symbol, and the
item with the dot at the end is valid on top. -/
structure ReadThrough (g : Grammar) (t : Table) (i d n q : Nat) (stack : List Nat) (x : Symbol)
    (input rest : List Symbol) (pushed : List Nat) (top : Nat) (tail : List Nat) : Prop where
  drives : t.Drives ⟨(q :: stack).map Nat.toUInt32, input⟩
    ⟨(pushed ++ q :: stack).map Nat.toUInt32, rest⟩
  length : pushed.length = n
  stack_eq : pushed ++ q :: stack = top :: tail
  lt : top < (states g).kernels.size
  valid : Valid g top ⟨i, d + n⟩ x

/-- The terminal that comes next can come after the nonterminal behind the dot. -/
theorem follows_of_yieldsAll (hg : g.WellFormed) {i d : Nat} {p : Production}
    (hp : g.productions[i]? = some p) {v rest : List Symbol} {x y : Symbol}
    (hv : g.YieldsAll (p.rhs.drop (d + 1)) v) (hx : rest.head? = some x)
    (hy : (v ++ rest).head? = some y) :
    (ClosureTables.followAfter g (FirstSets.ofGrammar g) ⟨i, d⟩).set.contains y = true ∨
      ((ClosureTables.followAfter g (FirstSets.ofGrammar g) ⟨i, d⟩).inherits = true ∧ y = x) := by
  rw [ClosureTables.followAfter_eq hp]
  cases v with
  | nil =>
      rw [List.nil_append, hx, Option.some.injEq] at hy
      exact .inr ⟨(FirstSets.ofSeq_snd_iff hg).2 hv.derives, hy.symm⟩
  | cons a v =>
      obtain rfl : a = y := by simpa using hy
      exact .inl ((FirstSets.contains_ofSeq_iff hg).2
        ⟨hv.isTerminal a List.mem_cons_self, v, hv.derives⟩)

mutual

/-- The driver reads a tree through and goes on from the successor on its symbol. -/
theorem drives_yields (hg : g.WellFormed) (hf : t.Faithful g) (hfit : t.NumbersFit) {s : Symbol}
    {v : List Symbol} (h : g.Yields s v) (stack : List Nat) {i d q q' : Nat} {x y : Symbol}
    {rest : List Symbol} (hq : q < (states g).kernels.size) (hvalid : Valid g q ⟨i, d⟩ x)
    (hs : g.nextSymbol? ⟨i, d⟩ = some s) (hstep : (states g).step? q s = some q')
    (hrest : rest.head? = some y) (hterminal : g.isTerminal y = true)
    (hy : (ClosureTables.followAfter g (FirstSets.ofGrammar g) ⟨i, d⟩).set.contains y = true ∨
      ((ClosureTables.followAfter g (FirstSets.ofGrammar g) ⟨i, d⟩).inherits = true ∧ y = x)) :
    t.Drives ⟨(q :: stack).map Nat.toUInt32, v ++ rest⟩
      ⟨(q' :: q :: stack).map Nat.toUInt32, rest⟩ := by
  match h with
  | .terminal s hterm => exact .single (drive?_shift hf hterm hstep)
  | .node j p w hp hw =>
      have hvalid' := hvalid.expand hg hp
        (Grammar.nextNonterminal?_eq_some.2 ⟨hs, hg.isTerminal_lhs hp⟩) hy
      obtain ⟨pushed, top, tail, hthrough⟩ := drives_yieldsAll hg hf hfit hw stack hp
        List.drop_zero hq hvalid' hrest hterminal
      have hj : j ≠ 0 := by
        rintro rfl
        obtain ⟨p₀, hp₀, hlhs₀, _⟩ := hg.start
        rw [hp, Option.some.injEq] at hp₀
        subst hp₀
        exact (hg.nextSymbol?_usable hs).2.1 hlhs₀
      have hcomplete : Compile.Completes g top j y := by
        refine ⟨0 + p.rhs.length, ?_, hthrough.valid.looks⟩
        rw [Grammar.isComplete, hp]
        simp [Production.rhs]
      obtain ⟨rest', rfl⟩ : ∃ rest', rest = y :: rest' := by
        cases rest with
        | nil => cases hrest
        | cons z rest' =>
            cases hrest
            exact ⟨rest', rfl⟩
      exact hthrough.drives.tail (drive?_reduce hg hf hfit hp hj hthrough.lt hterminal hcomplete
        hthrough.stack_eq hthrough.length hq hstep)

/-- The driver reads trees for the symbols behind the dot through, one after the other. -/
theorem drives_yieldsAll (hg : g.WellFormed) (hf : t.Faithful g) (hfit : t.NumbersFit)
    {symbols v : List Symbol} (h : g.YieldsAll symbols v) (stack : List Nat) {i d q : Nat}
    {p : Production} {x : Symbol} {rest : List Symbol} (hp : g.productions[i]? = some p)
    (hsymbols : p.rhs.drop d = symbols) (hq : q < (states g).kernels.size)
    (hvalid : Valid g q ⟨i, d⟩ x) (hrest : rest.head? = some x)
    (hterminal : g.isTerminal x = true) :
    ∃ pushed top tail,
      ReadThrough g t i d symbols.length q stack x (v ++ rest) rest pushed top tail := by
  match h with
  | .nil => exact ⟨[], q, stack, .refl, rfl, rfl, hq, hvalid⟩
  | .cons s symbols u v hs hv =>
      have hnext : p.rhs[d]? = some s := by
        rw [← List.head?_drop, hsymbols, List.head?_cons]
      have hdrop : p.rhs.drop (d + 1) = symbols := by
        rw [← List.tail_drop, hsymbols, List.tail_cons]
      have hsymbol : g.nextSymbol? ⟨i, d⟩ = some s := Grammar.nextSymbol?_eq_some.2 ⟨p, hp, hnext⟩
      obtain ⟨q', hstep, hvalid'⟩ := hvalid.step hg hq hsymbol
      have hq' := (Lr0.kernel_of_step? hg hstep).1
      -- the terminal in front of which the first tree ends
      obtain ⟨y, hy, hyterminal⟩ : ∃ y, (v ++ rest).head? = some y ∧ g.isTerminal y = true := by
        cases hvlist : v with
        | nil => exact ⟨x, hrest, hterminal⟩
        | cons a v' => exact ⟨a, rfl, hv.isTerminal a (by rw [hvlist]; exact List.mem_cons_self)⟩
      have hfollows := follows_of_yieldsAll hg hp (d := d) (hdrop ▸ hv) hrest hy
      have hfirst := drives_yields hg hf hfit hs stack hq hvalid hsymbol hstep hy
        hyterminal hfollows
      obtain ⟨pushed, top, tail, hthrough⟩ := drives_yieldsAll hg hf hfit hv (q :: stack)
        hp hdrop hq' hvalid' hrest hterminal
      refine ⟨pushed ++ [q'], top, tail, ?_, ?_, ?_, hthrough.lt, ?_⟩
      · rw [List.append_assoc, List.append_assoc, List.singleton_append]
        exact hfirst.trans hthrough.drives
      · rw [List.length_append, hthrough.length, List.length_singleton, List.length_cons]
      · rw [List.append_assoc, List.singleton_append]
        exact hthrough.stack_eq
      · have hlast := hthrough.valid
        rw [List.length_cons, show d + (symbols.length + 1) = d + 1 + symbols.length by omega]
        exact hlast

end

/-- A driver whose input the start symbol derives comes to an accepting cell. -/
theorem accepts_of_yieldsAll (hg : g.WellFormed) (hf : t.Faithful g) (hfit : t.NumbersFit)
    {w : List Symbol} (h : g.YieldsAll [g.start] w) : t.Accepts w := by
  obtain ⟨p, hp, hlhs, hrhs⟩ := hg.start
  have heof : g.isTerminal Symbol.eof = true := decide_eq_true hg.terminals
  have hsymbols : p.rhs.drop 0 = [g.start] := by rw [List.drop_zero, hrhs]
  have hrest : [Symbol.eof].head? = some Symbol.eof := rfl
  obtain ⟨pushed, top, tail, hthrough⟩ := drives_yieldsAll hg hf hfit h [] hp hsymbols
    (Lr0.size_kernels_pos hg) (valid_start hg) hrest heof
  have hcomplete : Compile.Completes g top 0 Symbol.eof := by
    refine ⟨0 + [g.start].length, ?_, hthrough.valid.looks⟩
    have hlength := congrArg List.length hrhs
    rw [Production.rhs, List.length_map, Array.length_toList, List.length_singleton] at hlength
    rw [Grammar.isComplete, hp]
    simp [hlength]
  have haction := hf.reduce top 0 Symbol.eof hthrough.lt heof hcomplete
  rw [Candidates.reduceAction, if_pos rfl] at haction
  have hdrives := hthrough.drives
  rw [hthrough.stack_eq] at hdrives
  refine ⟨_, ?_, top.toUInt32, tail.map Nat.toUInt32, Symbol.eof, [], rfl, haction⟩
  rw [hf.compiledFrom.startState]
  exact hdrives

theorem yieldsAll_of_accepts (hg : g.WellFormed) (hf : t.Faithful g) (hfit : t.NumbersFit)
    {w : List Symbol} (hw : ∀ s ∈ w, g.isTerminal s = true) (heof : Symbol.eof ∉ w)
    (h : t.Accepts w) : g.YieldsAll [g.start] w := by
  obtain ⟨d, hdrives, haccepting⟩ := h
  rw [hf.compiledFrom.startState] at hdrives
  have hread : HasRead g (w ++ [Symbol.eof]) ⟨[0], w ++ [Symbol.eof]⟩ :=
    ⟨[0], [], [], rfl, .start, .nil, rfl⟩
  have hterminals : ∀ s ∈ w ++ [Symbol.eof], g.isTerminal s = true := by
    intro s hs
    rcases List.mem_append.1 hs with hs | hs
    · exact hw s hs
    · rw [List.mem_singleton.1 hs]
      exact decide_eq_true hg.terminals
  exact yieldsAll_of_accepting hg hf hw heof (hread.drives hg hf hfit hterminals hdrives) haccepting

/-! ### The language of a table -/

/-- The table of a grammar without conflicts accepts just the strings that the start symbol
derives, as long as the states and productions fit into its numbers. -/
theorem Table.accepts_iff_derives {d : GrammarDef} {policy : ConflictPolicy}
    (hg : Grammar.load d = .ok g) (ht : Table.compile g policy = .ok t)
    (hresolutions : t.resolutions = #[]) (hfit : t.NumbersFit) {w : List Symbol}
    (hw : ∀ s ∈ w, t.isTerminal s = true ∧ s ≠ Symbol.eof) :
    t.Accepts w ↔ g.Derives [g.start] w := by
  have hwf := Grammar.load_wellFormed hg
  have hf := Table.faithful_of_compile hwf ht hresolutions hfit
  have hterminals : ∀ s ∈ w, g.isTerminal s = true := by
    intro s hs
    have hs := (hw s hs).1
    rwa [Table.isTerminal, hf.compiledFrom.terminalCount] at hs
  have heof : Symbol.eof ∉ w := fun h => (hw Symbol.eof h).2 rfl
  constructor
  · intro haccepts
    exact (yieldsAll_of_accepts hwf hf hfit hterminals heof haccepts).derives
  · intro hderives
    exact accepts_of_yieldsAll hwf hf hfit (hderives.yieldsAll hterminals)

/-! ### A grammar with one optional token -/

def GrammarDef.optionalToken : GrammarDef :=
  { name := "optional", rules := [("s", .optional (.pattern "x"))], extras := some [] }

def Grammar.optionalToken : Grammar :=
  { name := "optional"
    symbols := #[⟨"end", .terminal, false, false, false⟩,
      ⟨"s_token1", .terminal, false, false, false⟩, ⟨"start'", .auxiliary, false, false, false⟩,
      ⟨"s", .nonterminal, true, true, false⟩]
    terminalCount := 2
    start := ⟨3⟩
    productions := #[⟨⟨2⟩, #[{ symbol := ⟨3⟩ }], none, 0⟩, ⟨⟨3⟩, #[{ symbol := ⟨1⟩ }], none, 0⟩,
      ⟨⟨3⟩, #[], none, 0⟩]
    fields := #[]
    tokens := #[⟨⟨1⟩, "x", false⟩]
    skips := []
    extras := []
    externals := #[]
    word := none
    keywords := []
    conflicts := []
    tokenPrecedence := []
    auxOrigin := []
    warnings := [] }

theorem load_optionalToken : Grammar.load .optionalToken = .ok .optionalToken := by
  have hstart : GrammarDef.optionalToken.startName = .ok "s" := by
    simp [GrammarDef.startName, GrammarDef.optionalToken, GrammarDef.ruleNames,
      GrammarDef.duplicateName?, bind, Except.bind, pure, Except.pure]
  have hvisible : Terminals.isVisibleName "s" = true := by decide +kernel
  have hpatterns : checkPatterns Grammar.optionalToken.symbols Grammar.optionalToken.tokens []
      = .ok () := by decide +kernel
  have hpure : ∀ (alternatives : List Alternative) (e : Expansion),
      (StateT.pure alternatives : Expand (List Alternative)) e = .ok (alternatives, e) :=
    fun _ _ => rfl
  simp only [Grammar.optionalToken] at hpatterns
  simp [Grammar.load, hstart]
  simp [GrammarDef.terminals, GrammarDef.optionalToken, Grammar.optionalToken, Terminals.initial,
    Terminals.addLexicalRule, Terminals.addSyntacticRule, lexicalSource?, Rule.isLexical,
    Terminals.addInline, Terminals.addPattern, addSymbol, bind, Except.bind, pure, Except.pure,
    addNonterminals, hvisible, augmentedStartName, expandRules, expand, StateT.run,
    Alternative.distinct, Alternative.symbols, Alternative.single, ExpansionScope.patternSymbol,
    Alternative.toProduction, List.foldlM, hpure, StateT.bind, Symbol.ofIndex, findKeywords,
    tokenPrecedences]
  rw [show "s_token" ++ Nat.repr 1 = "s_token1" by decide]
  simp [hpatterns, Rule.fieldNames, sortedNames]
  simp [unreachableRules, Production.rhs, reachable, SymbolSet.contains_insert, SymbolSet.ofList]

theorem states_optionalToken : states Grammar.optionalToken
    = ⟨#[[⟨0, 0⟩], [⟨1, 1⟩], [⟨0, 1⟩]], #[[(⟨1⟩, 1), (⟨3⟩, 2)], [], []]⟩ := by
  have hmoves₀ : Lr0.moves .optionalToken Grammar.optionalToken.productionsByLhs [⟨0, 0⟩]
      = [(⟨1⟩, [⟨1, 1⟩]), (⟨3⟩, [⟨0, 1⟩])] := by decide
  have hmoves₁ : Lr0.moves .optionalToken Grammar.optionalToken.productionsByLhs [⟨1, 1⟩]
      = [] := by decide
  have hmoves₂ : Lr0.moves .optionalToken Grammar.optionalToken.productionsByLhs [⟨0, 1⟩]
      = [] := by decide
  have hcount : Lr0.itemCount .optionalToken = 5 := by decide
  simp [states, Lr0.ofGrammar, hmoves₀, hmoves₁, hmoves₂, hcount, Lr0.Builder.run,
    Lr0.startKernel, Lr0.Builder.addTransitions, Lr0.Builder.addState]

def Table.optionalToken : Table :=
  { name := "optional"
    symbols := Grammar.optionalToken.symbols
    terminalCount := 2
    startSymbol := ⟨3⟩
    fields := #[]
    productions := Grammar.optionalToken.productions.map Compile.productionInfo
    stateCount := 3
    actions := #[.reduce 2, .shift 1, .error, .goto 2, .reduce 1, .error, .error, .error, .accept,
      .error, .error, .error]
    ambigs := #[]
    fragile := []
    breakdown := []
    lexModes := #[#[⟨0⟩, ⟨1⟩], #[⟨0⟩]]
    stateModes := #[0, 1, 1]
    lexical := { tokens := #[⟨⟨1⟩, "x", false⟩] }
    extras := #[]
    externals := #[]
    resolutions := #[]
    kernels := #[#[⟨0, 0⟩], #[⟨1, 1⟩], #[⟨0, 1⟩]]
    startState := 0 }

theorem compile_optionalToken : Table.compile .optionalToken .strict = .ok .optionalToken := by
  have hbuilt : (match Compile.buildRows (LookaheadTables.ofGrammar .optionalToken)
      (states .optionalToken) .strict with
    | .ok rows => rows.actions == Table.optionalToken.actions && rows.ambigs == #[] &&
        rows.fragile == [] && rows.breakdown == [] && rows.resolutions == []
    | .error _ => false) = true := by
    rw [states_optionalToken]
    decide +kernel
  have hmodes : Compile.lexModes .optionalToken Table.optionalToken.actions 3
      = (Table.optionalToken.lexModes, Table.optionalToken.stateModes) := by
    simp +decide [Compile.lexModes, Grammar.optionalToken, List.range_succ, Table.optionalToken,
      SymbolSet.ofList, Symbol.ofIndex, Symbol.index]
  split at hbuilt
  · rename_i rows hrows
    simp only [Bool.and_eq_true, beq_iff_eq] at hbuilt
    obtain ⟨⟨⟨⟨hactions, hambigs⟩, hfragile⟩, hbreakdown⟩, hresolutions⟩ := hbuilt
    have hstates : Lr0.ofGrammar .optionalToken = _ := states_optionalToken
    rw [Table.compile]
    simp only [hrows, bind, Except.bind, hactions, hambigs, hfragile, hbreakdown, hresolutions]
    rw [hstates, show (Array.size #[[(⟨0, 0⟩ : Item)], [⟨1, 1⟩], [⟨0, 1⟩]]) = 3 from rfl, hmodes]
    refine congrArg Except.ok ?_
    decide +kernel
  · cases hbuilt

theorem exists_compile_optionalToken : ∃ t, Table.compile .optionalToken .strict = .ok t ∧
    t.resolutions = #[] ∧ t.NumbersFit :=
  ⟨.optionalToken, compile_optionalToken, rfl, by decide, by decide +kernel⟩

/-- The table of a grammar with one optional token accepts the token, as the grammar derives it. -/
theorem accepts_iff_derives_token : ∃ t, Table.compile .optionalToken .strict = .ok t ∧
    (t.Accepts [⟨1⟩] ↔ Grammar.optionalToken.Derives [⟨3⟩] [⟨1⟩]) := by
  obtain ⟨t, ht, hresolutions, hfit⟩ := exists_compile_optionalToken
  have hcount : t.terminalCount = 2 := (Table.compile_eq_ok ht).1.terminalCount
  refine ⟨t, ht, Table.accepts_iff_derives load_optionalToken ht hresolutions hfit ?_⟩
  intro s hs
  rw [List.mem_singleton.1 hs, Table.isTerminal, hcount]
  decide

end IncrementalLR
