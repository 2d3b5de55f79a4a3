import IncrementalLR.Proofs.Table.Acceptance
import IncrementalLR.Proofs.Table.Range

/-!
# Storing a table and reading it back

A table that was compiled from a loaded grammar, or read from any bytes, is the table that is read
back from what is written of it.
-/

namespace IncrementalLR

variable {g : Grammar} {policy : ConflictPolicy}

open KernelFollows (states)

namespace Table

/-- Every length in the table has 32 bits. -/
structure LengthsFit (t : Table) : Prop where
  name : TextFits t.name
  symbols : ListFits (fun info => TextFits info.name) t.symbols
  fields : ListFits TextFits t.fields
  productions : ListFits (fun p => p.rhs.size < 2 ^ 32) t.productions
  states : t.stateCount < 2 ^ 32
  ambigs : ListFits (fun kept => kept.size < 2 ^ 32) t.ambigs
  fragile : t.fragile.length < 2 ^ 32
  breakdown : t.breakdown.length < 2 ^ 32
  lexModes : ListFits (fun mode => mode.size < 2 ^ 32) t.lexModes
  tokens : ListFits (fun token => TextFits token.pattern) t.lexical.tokens
  skips : ListFits TextFits t.lexical.skips
  keywords : ListFits (fun k => TextFits k.1) t.lexical.keywords
  extras : t.extras.size < 2 ^ 32
  externals : t.externals.size < 2 ^ 32
  resolutions : ListFits (fun r => r.discarded.length < 2 ^ 32) t.resolutions
  kernels : ∀ kernel ∈ t.kernels, kernel.size < 2 ^ 32

theorem ListFits.and {α : Type} {P Q : α → Prop} {xs : Array α} (h : ListFits P xs)
    (hQ : ∀ x ∈ xs, Q x) : ListFits (fun x => Q x ∧ P x) xs :=
  ⟨h.1, fun x hx => ⟨hQ x hx, h.2 x hx⟩⟩

theorem ListFits.imp {α : Type} {P Q : α → Prop} {xs : Array α} (h : ListFits P xs)
    (hQ : ∀ x ∈ xs, P x → Q x) : ListFits Q xs :=
  ⟨h.1, fun x hx => hQ x hx (h.2 x hx)⟩

theorem productionFits_productionInfo (hg : g.WellFormed) (hrefs : g.References)
    (hfields : g.fields.size < 65535) {p : Production} (hp : p ∈ g.productions)
    (hlength : (Compile.productionInfo p).rhs.size < 2 ^ 32) :
    ProductionFits g.symbols.size g.fields.size (Compile.productionInfo p) := by
  refine ⟨(hg.lhs p hp).2, hlength, by simp [Compile.productionInfo], ?_⟩
  intro step hstep
  rw [Compile.productionInfo, Array.toList_map, Array.toList_map, List.zip_map'] at hstep
  obtain ⟨step', hmem, rfl⟩ := List.mem_map.1 hstep
  refine ⟨(hg.rhs p hp step'.symbol (List.mem_map_of_mem hmem)).2.2, fun i hi => ?_⟩
  obtain ⟨f, hf, rfl⟩ := Option.map_eq_some_iff.1 hi
  obtain ⟨i, hlt, rfl⟩ := hrefs.fields p hp step' (Array.mem_toList_iff.1 hmem) f hf
  have hnat : i.toUInt16.toNat = i := by
    rw [Nat.toUInt16_eq, UInt16.toNat_ofNat', Nat.mod_eq_of_lt (by omega)]
  refine ⟨by simpa only [hnat] using hlt, fun heq => ?_⟩
  have hvalue := congrArg UInt16.toNat heq
  rw [hnat] at hvalue
  simp at hvalue
  omega

theorem fits_of_compile (hg : g.WellFormed) (hrefs : g.References) {t : Table}
    (h : Table.compile g policy = .ok t) (hlengths : t.LengthsFit)
    (hfields : t.fields.size < 65535) : t.Fits := by
  rw [Table.compile] at h
  obtain ⟨rows, hrows, h⟩ := exists_of_bind_eq_ok h
  cases h
  have hbound := hg.size
  have hterminals := hg.augmented_lt
  have horder := Compile.inOrder_buildRows hg hrows
  have hmodes := Compile.lexModesInRange hg rows.actions (states g).kernels.size
  have htoken : ∀ s : Symbol, s.IsToken g.terminalCount → s.index < g.symbols.size :=
    fun s hs => Nat.lt_trans hs.2 hterminals
  exact {
    name := hlengths.name
    symbols := hlengths.symbols
    terminalCount := by
      show g.terminalCount < 2 ^ 32
      omega
    startSymbol := by
      obtain ⟨p, hp, _, hrhs⟩ := hg.start
      refine (hg.rhs p (Array.mem_of_getElem? hp) g.start ?_).2.2
      rw [hrhs]
      exact List.mem_singleton_self _
    fields := hlengths.fields
    productions := by
      refine hlengths.productions.imp fun info hinfo hlength => ?_
      obtain ⟨p, hp, rfl⟩ := Array.mem_map.1 hinfo
      exact productionFits_productionInfo hg hrefs hfields hp hlength
    stateCount := hlengths.states
    actions := Compile.size_actions hg hrows
    ambigs := hlengths.ambigs.imp fun _ _ hsize => ⟨hsize, fun _ _ => trivial⟩
    fragile_length := hlengths.fragile
    fragile := Compile.ascending_sortFragile horder.fragile
    breakdown_length := hlengths.breakdown
    breakdown_symbols := fun entry => Compile.index_lt_of_mem_breakdown hg hrows
    breakdown := Compile.ascending_breakdown hg hrows (Nat.le_of_lt hlengths.states)
    lexModes := hlengths.lexModes.imp fun mode hmode hsize =>
      ⟨hsize, fun s hs => Nat.lt_trans (hmodes.symbols mode hmode s hs) hterminals⟩
    stateModes_size := hmodes.size
    stateModes := hmodes.modes
    tokens := hlengths.tokens.and fun token h => htoken _ (hg.tokens token h)
    skips := hlengths.skips
    word := by
      intro i hi
      obtain ⟨s, hs, rfl⟩ := Option.map_eq_some_iff.1 hi
      have hlt := htoken s (hrefs.word s hs)
      refine ⟨hlt, fun heq => ?_⟩
      have : s.index = 65535 := congrArg UInt16.toNat heq
      omega
    keywords := hlengths.keywords.imp fun k hk htext =>
      ⟨htext, htoken _ (hg.keywords k (List.mem_toArray.1 hk))⟩
    extras := ⟨hlengths.extras, fun s hs => htoken s (hrefs.extras s (List.mem_toArray.1 hs))⟩
    externals := ⟨hlengths.externals, fun s hs => htoken s (hg.externals s hs)⟩
    resolutions := hlengths.resolutions.and fun r hr => by
      obtain ⟨cell, hcell, heq⟩ := horder.resolutions r (List.mem_reverse.1 (List.mem_toArray.1 hr))
      rw [heq]
      exact Compile.index_lt_of_mem_cells hg hcell
    kernels_size := Array.size_map
    kernels := fun kernel hkernel => ⟨hlengths.kernels kernel hkernel, fun _ _ => trivial⟩ }

theorem actionOk_of_inRange {t : Table} {action : Action}
    (h : action.InRange t.stateCount t.productions.size t.ambigs.size) : t.actionOk action = true := by
  cases action with
  | error => rfl
  | accept => rfl
  | _ => exact decide_eq_true h

theorem problem?_eq_none {t : Table}
    (hterminals : 0 < t.terminalCount ∧ t.terminalCount ≤ t.symbols.size)
    (hstart : t.startState.toNat < t.stateCount) (hmodes : 0 < t.lexModes.size)
    (hactions : ∀ action ∈ t.actions, t.actionOk action = true)
    (hambigs : ∀ kept ∈ t.ambigs, ∀ action ∈ kept, t.actionOk action = true ∧ isAmbig action = false)
    (hkernels : ∀ kernel ∈ t.kernels, ∀ item ∈ kernel, t.kernelItemOk item = true) :
    t.problem? = none := by
  have hfind : t.actions.find? (!t.actionOk ·) = none := by
    rw [Array.find?_eq_none]
    intro action haction
    simp [hactions action haction]
  have hkept : t.ambigs.findSome? (·.find? (!t.actionOk ·)) = none := by
    rw [Array.findSome?_eq_none_iff]
    intro kept hmem
    rw [Array.find?_eq_none]
    intro action haction
    simp [(hambigs kept hmem action haction).1]
  have hnested : ¬t.ambigs.any (·.any isAmbig) = true := by
    rw [Array.any_eq_true']
    rintro ⟨kept, hmem, hany⟩
    obtain ⟨action, haction, hambig⟩ := Array.any_eq_true'.1 hany
    rw [(hambigs kept hmem action haction).2] at hambig
    cases hambig
  have hitems : ¬t.kernels.any (·.any (!t.kernelItemOk ·)) = true := by
    rw [Array.any_eq_true']
    rintro ⟨kernel, hmem, hany⟩
    obtain ⟨item, hitem, hbad⟩ := Array.any_eq_true'.1 hany
    simp [hkernels kernel hmem item hitem] at hbad
  have hempty : ¬t.lexModes.isEmpty = true := by
    rw [Array.isEmpty_iff_size_eq_zero]
    omega
  have hautomaton : ¬(t.startState.toNat ≥ t.stateCount ∨ t.lexModes.isEmpty = true) :=
    not_or.2 ⟨Nat.not_le_of_lt hstart, hempty⟩
  rw [problem?, if_neg (by omega), if_neg hautomaton, hfind, hkept]
  simp only [Option.none_or]
  rw [if_neg hnested, if_neg hitems]

theorem kernelItemOk_of_itemOf {t : Table} (hfrom : t.CompiledFrom g)
    (hproductions : t.productions.size ≤ 2 ^ 32) {item : Item} (h : Lr0.ItemOf g item) :
    t.kernelItemOk (Compile.kernelItem item) = true := by
  obtain ⟨p, hp, hdot⟩ := h
  obtain ⟨hlt, _⟩ := Array.getElem?_eq_some_iff.1 hp
  rw [hfrom.productions, Array.size_map] at hproductions
  have hnumber : item.prod.toUInt32.toNat = item.prod := by
    rw [Nat.toUInt32_eq, UInt32.toNat_ofNat', Nat.mod_eq_of_lt (by omega)]
  have hinfo : t.productions[item.prod.toUInt32.toNat]? = some (Compile.productionInfo p) := by
    rw [hnumber, hfrom.productions, Array.getElem?_map, hp, Option.map_some]
  -- a dot that does not fit 16 bits is stored as a smaller one
  have hstored := toNat_toUInt16_lt (Nat.lt_succ_of_le hdot)
  rw [kernelItemOk, Compile.kernelItem]
  simp only [hinfo, Compile.productionInfo, Array.size_map, decide_eq_true_eq]
  omega

theorem problem?_of_compile (hg : g.WellFormed) {t : Table} (h : Table.compile g policy = .ok t)
    (hfit : t.productions.size ≤ 2 ^ 32) : t.problem? = none := by
  have hfrom := (compile_eq_ok h).1
  rw [Table.compile] at h
  obtain ⟨rows, hrows, h⟩ := exists_of_bind_eq_ok h
  cases h
  have hterminals := hg.augmented_lt
  have hpos := hg.terminals
  have horder := Compile.inOrder_buildRows hg hrows
  have hmodes := Compile.lexModesInRange hg rows.actions (states g).kernels.size
  have hproductions : (g.productions.map Compile.productionInfo).size = g.productions.size :=
    Array.size_map
  refine problem?_eq_none ⟨hpos, Nat.le_of_lt hterminals⟩ (Lr0.size_kernels_pos hg) hmodes.pos ?_ ?_ ?_
  · intro action haction
    refine actionOk_of_inRange ?_
    simp only [hproductions]
    exact horder.actions action haction
  · intro kept hkept action haction
    have hrange := horder.ambigs kept hkept action haction
    constructor
    · refine actionOk_of_inRange ?_
      simp only [hproductions]
      exact hrange.mono (Nat.zero_le _)
    · cases action with
      | ambig entry => exact absurd hrange (Nat.not_lt_zero _)
      | _ => rfl
  · intro kernel hkernel item hitem
    obtain ⟨items, hitems, rfl⟩ := Array.mem_map.1 hkernel
    obtain ⟨item', hitem', rfl⟩ := List.mem_map.1 (List.mem_toArray.1 hitem)
    refine kernelItemOk_of_itemOf hfrom hfit ?_
    obtain ⟨q, hq, rfl⟩ := Array.mem_iff_getElem.1 hitems
    have hkernel := Lr0.kernelOf_kernel hg q
    rw [Lr0.kernel, Array.getD_eq_getD_getElem?, Array.getElem?_eq_getElem hq] at hkernel
    exact hkernel.items item' hitem'

/-- Where tables come from: a grammar is compiled, or bytes are read. -/
inductive Obtained : Table → Prop
  | compiled {d : GrammarDef} {g : Grammar} {policy : ConflictPolicy} {t : Table}
      (hload : Grammar.load d = .ok g) (hcompile : Table.compile g policy = .ok t)
      (hfields : t.fields.size < 65535) (hlengths : t.LengthsFit) : Obtained t
  | decoded {bytes : List UInt8} {t : Table} (hdecode : decode bytes = .ok t) : Obtained t

theorem Obtained.fits {t : Table} (h : t.Obtained) : t.Fits ∧ t.problem? = none := by
  cases h with
  | compiled hload hcompile hfields hlengths =>
      have hg := Grammar.load_wellFormed hload
      have hrefs := Grammar.load_references hload
      exact ⟨fits_of_compile hg hrefs hcompile hlengths hfields,
        problem?_of_compile hg hcompile (Nat.le_of_lt hlengths.productions.1)⟩
  | decoded hdecode => exact fits_of_decode hdecode

/-- What is written of a table is read back as the table. -/
theorem decode_encode {t : Table} (h : t.Obtained) : decode (encode t) = .ok t := by
  obtain ⟨hfits, hproblem⟩ := h.fits
  exact decode_encode_of_fits hfits hproblem

end Table

theorem lengthsFit_optionalToken {t : Table} (h : Table.compile .optionalToken .strict = .ok t) :
    t.LengthsFit := by
  obtain rfl : t = .optionalToken := Except.ok.inj (h.symm.trans compile_optionalToken)
  constructor <;> decide +kernel

theorem obtained_optionalToken {t : Table} (h : Table.compile .optionalToken .strict = .ok t) :
    t.Obtained := by
  have hfields : t.fields.size < 65535 := by
    obtain rfl : t = .optionalToken := Except.ok.inj (h.symm.trans compile_optionalToken)
    decide
  exact .compiled load_optionalToken h hfields (lengthsFit_optionalToken h)

/-- The table of a grammar with one optional token is stored and read back. -/
theorem decode_encode_optionalToken : ∃ t, Table.compile .optionalToken .strict = .ok t ∧
    Table.decode (Table.encode t) = .ok t :=
  ⟨_, compile_optionalToken, Table.decode_encode (obtained_optionalToken compile_optionalToken)⟩

end IncrementalLR
