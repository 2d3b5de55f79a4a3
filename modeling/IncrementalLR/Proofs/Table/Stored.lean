import IncrementalLR.Proofs.Table.Sections

/-!
# Stored tables are read back

A table fits its stored form when its lengths have 32 bits, its symbols, fields and lex modes are
numbers of entries that exist, its sections have the lengths that are not stored, and its records are
in ascending order. What is written of such a table is read back, and every table that is read is one.
-/

namespace IncrementalLR.Table

variable {α κ : Type}

/-! ### Records in ascending order -/

section Ascending

variable [DecidableEq κ] {key : α → κ} {rank : α → Nat}

/-- Every entry ranks below those behind it. -/
def Ascending (rank : α → Nat) (entries : List α) : Prop :=
  entries.Pairwise fun a b => rank a < rank b

theorem lastOfEach_subset (entries : List α) : Decode.lastOfEach key entries ⊆ entries := by
  fun_induction Decode.lastOfEach key entries with
  | case1 a b rest _ ih => exact List.Subset.trans ih (List.subset_cons_self a _)
  | case2 a b rest _ ih => exact List.cons_subset_cons a ih
  | case3 rest => exact List.Subset.refl rest

theorem length_lastOfEach_le (entries : List α) :
    (Decode.lastOfEach key entries).length ≤ entries.length := by
  fun_induction Decode.lastOfEach key entries with
  | case1 a b rest _ ih => exact Nat.le_trans ih (Nat.le_succ _)
  | case2 a b rest _ ih => exact Nat.succ_le_succ ih
  | case3 rest => exact Nat.le_refl _

theorem lastOfEach_of_ascending (hkey : ∀ a b, key a = key b → rank a = rank b)
    {entries : List α} (h : Ascending rank entries) : Decode.lastOfEach key entries = entries := by
  fun_induction Decode.lastOfEach key entries with
  | case1 a b rest heq _ =>
      have hlt : rank a < rank b := (List.pairwise_cons.1 h).1 b List.mem_cons_self
      rw [hkey a b heq] at hlt
      exact absurd hlt (Nat.lt_irrefl _)
  | case2 a b rest _ ih => rw [ih (List.pairwise_cons.1 h).2]
  | case3 => rfl

theorem ascending_lastOfEach (hkey : ∀ a b, rank a = rank b → key a = key b) {entries : List α}
    (h : entries.Pairwise fun a b => rank a ≤ rank b) :
    Ascending rank (Decode.lastOfEach key entries) := by
  fun_induction Decode.lastOfEach key entries with
  | case1 a b rest _ ih => exact ih (List.pairwise_cons.1 h).2
  | case2 a b rest hne ih =>
      obtain ⟨ha, hrest⟩ := List.pairwise_cons.1 h
      refine List.pairwise_cons.2 ⟨fun c hc => ?_, ih hrest⟩
      have hab : rank a < rank b :=
        Nat.lt_of_le_of_ne (ha b List.mem_cons_self) fun heq => hne (hkey a b heq)
      rcases List.mem_cons.1 (lastOfEach_subset _ hc) with rfl | hc
      · exact hab
      · exact Nat.lt_of_lt_of_le hab ((List.pairwise_cons.1 hrest).1 c hc)
  | case3 rest hshort =>
      match rest with
      | [] => exact .nil
      | [a] => exact List.pairwise_singleton _ a
      | a :: b :: rest => exact absurd rfl (hshort a b rest)

/-- A comparison of entries that sorts by rank. -/
theorem pairwise_mergeSort_rank {le : α → α → Bool} (hle : ∀ a b, le a b = decide (rank a ≤ rank b))
    (entries : List α) : (entries.mergeSort le).Pairwise fun a b => rank a ≤ rank b := by
  have hsorted : (entries.mergeSort le).Pairwise fun a b => le a b = true := List.pairwise_mergeSort
    (fun a b c hab hbc => by
      rw [hle, decide_eq_true_eq] at *
      exact Nat.le_trans hab hbc)
    (fun a b => by
      rw [hle, hle, Bool.or_eq_true, decide_eq_true_eq, decide_eq_true_eq]
      exact Nat.le_total _ _) entries
  exact hsorted.imp fun {a b} hab => by rwa [hle, decide_eq_true_eq] at hab

theorem mergeSort_of_ascending {le : α → α → Bool} (hle : ∀ a b, le a b = decide (rank a ≤ rank b))
    {entries : List α} (h : Ascending rank entries) : entries.mergeSort le = entries := by
  refine List.mergeSort_of_pairwise (h.imp fun {a b} hab => ?_)
  rw [hle, decide_eq_true_eq]
  exact Nat.le_of_lt hab

end Ascending

/-- The place of a pair of state and production in the order of fragile reductions. -/
def fragileRank (pair : StateId × ProductionId) : Nat := pair.1.toNat * 2 ^ 32 + pair.2.toNat

/-- The place of the cell of a lost shift in the order of cells. -/
def breakdownRank (entry : StateId × Symbol × StateId) : Nat :=
  entry.1.toNat * 2 ^ 16 + entry.2.1.index

theorem fragileRank_le (a b : StateId × ProductionId) :
    (decide (a.1 < b.1) || (a.1 == b.1 && decide (a.2 ≤ b.2)))
      = decide (fragileRank a ≤ fragileRank b) := by
  have ha := a.2.toNat_lt
  have hb := b.2.toNat_lt
  rw [Bool.eq_iff_iff]
  simp only [Bool.or_eq_true, Bool.and_eq_true, decide_eq_true_eq, beq_iff_eq,
    UInt32.lt_iff_toNat_lt, UInt32.le_iff_toNat_le, ← UInt32.toNat_inj]
  simp only [fragileRank]
  omega

theorem fragileRank_injective {a b : StateId × ProductionId} (h : fragileRank a = fragileRank b) :
    a = b := by
  have ha := a.2.toNat_lt
  have hb := b.2.toNat_lt
  rw [Prod.ext_iff, ← UInt32.toNat_inj, ← UInt32.toNat_inj]
  simp only [fragileRank] at h
  omega

theorem breakdownRank_le (a b : StateId × Symbol × StateId) :
    (decide (a.1 < b.1) || (a.1 == b.1 && decide (a.2.1.id ≤ b.2.1.id)))
      = decide (breakdownRank a ≤ breakdownRank b) := by
  have ha := a.2.1.index_lt
  have hb := b.2.1.index_lt
  rw [Bool.eq_iff_iff]
  simp only [Bool.or_eq_true, Bool.and_eq_true, decide_eq_true_eq, beq_iff_eq,
    UInt32.lt_iff_toNat_lt, UInt16.le_iff_toNat_le, ← UInt32.toNat_inj]
  simp only [breakdownRank, Symbol.index] at *
  omega

theorem breakdownRank_eq_iff {a b : StateId × Symbol × StateId} :
    breakdownRank a = breakdownRank b ↔ (a.1, a.2.1) = (b.1, b.2.1) := by
  have ha := a.2.1.index_lt
  have hb := b.2.1.index_lt
  rw [Prod.mk.injEq, ← UInt32.toNat_inj, ← Symbol.index_inj]
  simp only [breakdownRank]
  omega

theorem fragileSet_of_ascending {pairs : List (StateId × ProductionId)}
    (h : Ascending fragileRank pairs) : Decode.fragileSet pairs = pairs := by
  rw [Decode.fragileSet, mergeSort_of_ascending fragileRank_le h]
  exact lastOfEach_of_ascending (fun a b => congrArg fragileRank) h

theorem ascending_fragileSet (pairs : List (StateId × ProductionId)) :
    Ascending fragileRank (Decode.fragileSet pairs) :=
  ascending_lastOfEach (fun _ _ => fragileRank_injective)
    (pairwise_mergeSort_rank fragileRank_le pairs)

theorem breakdownMap_of_ascending {entries : List (StateId × Symbol × StateId)}
    (h : Ascending breakdownRank entries) : Decode.breakdownMap entries = entries := by
  rw [Decode.breakdownMap, mergeSort_of_ascending breakdownRank_le h]
  exact lastOfEach_of_ascending (fun _ _ => breakdownRank_eq_iff.2) h

theorem ascending_breakdownMap (entries : List (StateId × Symbol × StateId)) :
    Ascending breakdownRank (Decode.breakdownMap entries) :=
  ascending_lastOfEach (fun _ _ => breakdownRank_eq_iff.1)
    (pairwise_mergeSort_rank breakdownRank_le entries)

theorem length_fragileSet_le (pairs : List (StateId × ProductionId)) :
    (Decode.fragileSet pairs).length ≤ pairs.length :=
  Nat.le_trans (length_lastOfEach_le _) (Nat.le_of_eq (List.length_mergeSort _))

theorem length_breakdownMap_le (entries : List (StateId × Symbol × StateId)) :
    (Decode.breakdownMap entries).length ≤ entries.length :=
  Nat.le_trans (length_lastOfEach_le _) (Nat.le_of_eq (List.length_mergeSort _))

theorem breakdownMap_subset (entries : List (StateId × Symbol × StateId)) :
    Decode.breakdownMap entries ⊆ entries :=
  fun _ hentry => List.mem_mergeSort.1 (lastOfEach_subset _ hentry)

/-! ### Tables -/

/-- A table that can be stored. -/
structure Fits (t : Table) : Prop where
  name : TextFits t.name
  symbols : ListFits (fun info => TextFits info.name) t.symbols
  terminalCount : t.terminalCount < 2 ^ 32
  startSymbol : t.startSymbol.index < t.symbols.size
  fields : ListFits TextFits t.fields
  productions : ListFits (ProductionFits t.symbols.size t.fields.size) t.productions
  stateCount : t.stateCount < 2 ^ 32
  /-- one row for each state -/
  actions : t.actions.size = t.stateCount * t.symbols.size
  ambigs : ListFits (ListFits fun _ => True) t.ambigs
  fragile_length : t.fragile.length < 2 ^ 32
  fragile : Ascending fragileRank t.fragile
  breakdown_length : t.breakdown.length < 2 ^ 32
  breakdown_symbols : ∀ entry ∈ t.breakdown, entry.2.1.index < t.symbols.size
  breakdown : Ascending breakdownRank t.breakdown
  lexModes : ListFits (ListFits (·.index < t.symbols.size)) t.lexModes
  /-- one lex mode for each state -/
  stateModes_size : t.stateModes.size = t.stateCount
  stateModes : ∀ mode ∈ t.stateModes, mode.toNat < t.lexModes.size
  tokens : ListFits (fun token => token.symbol.index < t.symbols.size ∧ TextFits token.pattern)
    t.lexical.tokens
  skips : ListFits TextFits t.lexical.skips
  word : OptionFits t.symbols.size (t.lexical.word.map (·.id))
  keywords : ListFits (fun k => TextFits k.1 ∧ k.2.index < t.symbols.size) t.lexical.keywords
  extras : ListFits (·.index < t.symbols.size) t.extras
  externals : ListFits (·.index < t.symbols.size) t.externals
  resolutions : ListFits (fun r => r.lookahead.index < t.symbols.size ∧ r.discarded.length < 2 ^ 32)
    t.resolutions
  /-- one kernel for each state -/
  kernels_size : t.kernels.size = t.stateCount
  kernels : ∀ kernel ∈ t.kernels, ListFits (fun _ => True) kernel

theorem reads_magic : Reads (Decode.takeBytes 4 ByteArray.empty) Encode.magic
    ⟨Encode.magic.toArray⟩ := by
  intro rest
  exact takeBytes_append Encode.magic rest ByteArray.empty

theorem reads_table {t : Table} (h : t.Fits) : Reads Decode.table (Encode.table t) t := by
  have hactions : Reads (Decode.many t.actions.size _) _ t.actions :=
    codec_action.many fun _ _ => True.intro
  have hfragile := codec_fragile.list.reads t.fragile.toArray
    ⟨by simpa using h.fragile_length, fun _ _ => True.intro⟩
  have hbreakdown := (codec_breakdown t.symbols.size).list.reads t.breakdown.toArray
    ⟨by simpa using h.breakdown_length, by simpa using h.breakdown_symbols⟩
  have hmodes := (codec_lexMode t.lexModes.size).many h.stateModes
  have hkernels := codec_kernel.many h.kernels
  rw [h.actions] at hactions
  rw [List.toList_toArray] at hfragile hbreakdown
  rw [h.stateModes_size] at hmodes
  rw [h.kernels_size] at hkernels
  rw [Encode.table, List.append_assoc, List.append_assoc]
  refine reads_magic.bind ((reads_u32 formatVersion).bind ((codec_text.reads _ h.name).bind
    ((codec_symbolInfo.list.reads _ h.symbols).bind
    ((codec_size.reads _ h.terminalCount).bind (((codec_symbol _).reads _ h.startSymbol).bind
    ((codec_text.list.reads _ h.fields).bind (((codec_production _ _).list.reads _ h.productions).bind
    ((codec_size.reads _ h.stateCount).bind (hactions.bind
    ((codec_actions.list.reads _ h.ambigs).bind (hfragile.bind (hbreakdown.bind
    (((codec_symbols _).list.reads _ h.lexModes).bind (hmodes.bind
    (((codec_token _).list.reads _ h.tokens).bind ((codec_text.list.reads _ h.skips).bind
    (((codec_word _).reads _ h.word).bind (((codec_keyword _).list.reads _ h.keywords).bind
    (((codec_symbols _).reads _ h.extras).bind (((codec_symbols _).reads _ h.externals).bind
    (((codec_resolution _).list.reads _ h.resolutions).bind (hkernels.bind
    ((reads_u32 t.startState).last ?_)))))))))))))))))))))))
  rw [List.toList_toArray, List.toList_toArray, fragileSet_of_ascending h.fragile,
    breakdownMap_of_ascending h.breakdown]

theorem gives_table : Gives Decode.table Fits := by
  refine (Gives.trivial _).bind fun mark _ => Gives.ite (fun _ => Gives.throw_bind) fun _ => ?_
  refine (Gives.trivial _).bind fun version _ =>
    Gives.ite (fun _ => Gives.throw_bind) fun _ => ?_
  refine codec_text.gives.bind fun name hname => codec_symbolInfo.list.gives.bind
    fun infos hinfos => codec_size.gives.bind fun terminalCount hterminals =>
    (codec_symbol _).gives.bind fun startSymbol hstart => codec_text.list.gives.bind
    fun fields hfields => (codec_production _ _).list.gives.bind fun productions hproductions =>
    codec_size.gives.bind fun stateCount hstates => (gives_many codec_action.gives _).bind
    fun actions hactions => codec_actions.list.gives.bind fun ambigs hambigs =>
    codec_fragile.list.gives.bind fun fragile hfragile => (codec_breakdown _).list.gives.bind
    fun breakdown hbreakdown => (codec_symbols _).list.gives.bind fun lexModes hlexModes =>
    (gives_many (codec_lexMode _).gives _).bind fun stateModes hstateModes =>
    (codec_token _).list.gives.bind fun tokens htokens => codec_text.list.gives.bind
    fun skips hskips => (codec_word _).gives.bind fun word hword =>
    (codec_keyword _).list.gives.bind fun keywords hkeywords => (codec_symbols _).gives.bind
    fun extras hextras => (codec_symbols _).gives.bind fun externals hexternals =>
    (codec_resolution _).list.gives.bind fun resolutions hresolutions =>
    (gives_many codec_kernel.gives _).bind fun kernels hkernels => (Gives.trivial _).bind
    fun startState _ => Gives.pure ?_
  exact {
    name := hname
    symbols := hinfos
    terminalCount := hterminals
    startSymbol := hstart
    fields := hfields
    productions := hproductions
    stateCount := hstates
    actions := hactions.1
    ambigs := hambigs
    fragile_length := Nat.lt_of_le_of_lt (length_fragileSet_le _) (by simpa using hfragile.1)
    fragile := ascending_fragileSet _
    breakdown_length := Nat.lt_of_le_of_lt (length_breakdownMap_le _) (by simpa using hbreakdown.1)
    breakdown_symbols := by
      intro entry hentry
      exact hbreakdown.2 entry (Array.mem_toList_iff.1 (breakdownMap_subset _ hentry))
    breakdown := ascending_breakdownMap _
    lexModes := hlexModes
    stateModes_size := hstateModes.1
    stateModes := hstateModes.2
    tokens := htokens
    skips := hskips
    word := hword
    keywords := hkeywords
    extras := hextras
    externals := hexternals
    resolutions := hresolutions
    kernels_size := hkernels.1
    kernels := hkernels.2 }

/-- What is written of a table in order is the table again. -/
theorem decode_encode_of_fits {t : Table} (h : t.Fits) (hproblem : t.problem? = none) :
    decode (encode t) = .ok t := by
  have hread := reads_table h []
  rw [List.append_nil] at hread
  rw [decode, encode, hread]
  simp only [bind, Except.bind, hproblem]
  rfl

/-- A table that is read can be stored, and nothing is wrong with it. -/
theorem fits_of_decode {bytes : List UInt8} {t : Table} (h : decode bytes = .ok t) :
    t.Fits ∧ t.problem? = none := by
  rw [decode] at h
  obtain ⟨⟨t', rest⟩, hread, h⟩ := exists_of_bind_eq_ok h
  simp only at h
  split at h
  · cases h
  · split at h
    · cases h
    · rename_i hproblem
      cases h
      exact ⟨gives_table bytes _ rest hread, hproblem⟩

end IncrementalLR.Table
