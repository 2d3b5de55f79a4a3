import IncrementalLR.Proofs.Parse.OnRun
import Mathlib.Order.Bounds.Defs

/-!
# The best parse

For every run over the tokens that accepts there is a thread from which at least as much can be
collected: an operation takes the run one step on, a version that is dropped has no run to go on with,
and of versions that merge the one that stays has the same states and weighs at least as much. So the
accepted version that is chosen in the end weighs as much as any run can collect.
-/

namespace IncrementalLR

/-! ### Comparing -/

theorem neg_lt_neg_iff_toInt {a b : Int32} (ha : -2 ^ 31 < a.toInt) (hb : -2 ^ 31 < b.toInt) :
    -b < -a ↔ a.toInt < b.toInt := by
  have hale := a.toInt_lt
  have hble := b.toInt_lt
  rw [Int32.lt_iff_toInt_lt, Int32.toInt_neg, Int32.toInt_neg, Int.bmod_eq_of_le (by omega) (by omega),
    Int.bmod_eq_of_le (by omega) (by omega)]
  omega

namespace Version.OnRun

variable {g : Grammar} {policy : ConflictPolicy} {setting : ParseSetting} {tokens : List Lexed}
  {v w : Version}

/-- Of two versions on runs the better one weighs more. -/
theorem better_iff (hreading : setting.Reading g policy tokens) (hv : v.OnRun setting tokens)
    (hw : w.OnRun setting tokens) :
    w.better v = true ↔ v.stack.dynamicPrecedence.toInt < w.stack.dynamicPrecedence.toInt := by
  rw [Version.better, hv.plain.errorCost, hw.plain.errorCost]
  simp only [beq_self_eq_true, Bool.true_and, Bool.or_eq_true, decide_eq_true_eq]
  rw [← neg_lt_neg_iff_toInt (hreading.totals _ _ _ hv.run).1 (hreading.totals _ _ _ hw.run).1]
  exact or_iff_right (by decide)

/-- Versions that merge are at one place of the tokens, and the same runs go on from them. -/
theorem structuralStates_eq (hreading : setting.Reading g policy tokens) (hv : v.OnRun setting tokens)
    (hw : w.OnRun setting tokens) (h : v.merges w = true) :
    v.position.bytes = w.position.bytes ∧ v.stack.structuralStates = w.stack.structuralStates := by
  simp only [Version.merges, Stack.sameStates, Bool.and_eq_true, beq_iff_eq] at h
  obtain ⟨⟨hposition, _⟩, hbase, hframes⟩ := h
  refine ⟨hposition, ?_⟩
  rcases hreading.extras with hnone | henters
  · rw [Stack.structuralStates_of_all (hv.parts hnone), Stack.structuralStates_of_all (hw.parts hnone),
      hbase, hframes]
  · exact (hv.plain.structuralStates_congr henters hw.plain hbase hframes).1

end Version.OnRun

/-- One version stands for another: the same runs go on from it, and it weighs at least as much. -/
structure Version.StandsFor (v w : Version) : Prop where
  position : v.position.bytes = w.position.bytes
  states : v.stack.structuralStates = w.stack.structuralStates
  weight : w.stack.dynamicPrecedence.toInt ≤ v.stack.dynamicPrecedence.toInt

namespace Version.StandsFor

variable {g : Grammar} {policy : ConflictPolicy} {setting : ParseSetting} {tokens : List Lexed}
  {u v w : Version} {total : Int}

theorem refl (v : Version) : v.StandsFor v := ⟨rfl, rfl, Int.le_refl _⟩

theorem trans (h : u.StandsFor v) (h' : v.StandsFor w) : u.StandsFor w :=
  ⟨h.position.trans h'.position, h.states.trans h'.states, h'.weight.trans h.weight⟩

/-- The better one of two versions that merge stands for both. -/
theorem of_merges (hreading : setting.Reading g policy tokens) (hv : v.OnRun setting tokens)
    (hw : w.OnRun setting tokens) (h : v.merges w = true) :
    (if w.better v then w else v).StandsFor v ∧ (if w.better v then w else v).StandsFor w := by
  obtain ⟨hposition, hstates⟩ := hv.structuralStates_eq hreading hw h
  have hbetter := hv.better_iff hreading hw
  split
  · rename_i hyes
    exact ⟨⟨hposition.symm, hstates.symm, Int.le_of_lt (hbetter.1 hyes)⟩, refl w⟩
  · rename_i hno
    exact ⟨refl v, hposition, hstates, Int.not_lt.1 (mt hbetter.2 hno)⟩

theorem reaches {table : Table} (h : v.StandsFor w)
    (hreaches : (Thread.going w).Reaches table tokens total) :
    (Thread.going v).Reaches table tokens total := by
  obtain ⟨rest, hfinishes, hle⟩ := hreaches
  refine ⟨rest, ?_, hle.trans (Int.add_le_add_right h.weight rest)⟩
  rw [h.states, h.position]
  exact hfinishes

end Version.StandsFor

/-- All threads are on runs, and for every run that accepts there is one from which as much can be
collected. -/
structure ParseState.Covers (setting : ParseSetting) (tokens : List Lexed) (s : ParseState) : Prop where
  onRun : ∀ r ∈ s.threads, r.OnRun setting tokens
  reaches : ∀ total ∈ setting.table.acceptingTotals (tokens.map (·.symbol)),
    ∃ r ∈ s.threads, r.Reaches setting.table tokens total

/-- The tree is complete and free of errors, and no run that accepts collects more than it weighs. -/
structure Tree.IsBest (table : Table) (input : List Symbol) (tree : Tree) : Prop where
  complete : tree.status = .complete
  ok : tree.root.flags.hasError = false
  greatest : IsGreatest (table.acceptingTotals input) tree.root.head.dynamicPrecedence.toInt

namespace ParseSetting

/-- The version on which the run does an operation in a state. -/
structure Operates (setting : ParseSetting) (start s : ParseState) (v : Version) : Prop where
  passes : setting.Passes start s
  version : ∃ i, s.nextVersion? = some i ∧ s.versions[i]? = some v

/-- In every mode in which the run asks the lexer at the place of a token it gets that token. -/
def SeesAlike (setting : ParseSetting) (start : ParseState) (tokens : List Lexed) : Prop :=
  ∀ s v, setting.Operates start s v → v.lookahead = none →
    ∀ token rest, Lexed.behind tokens v.position.bytes = token :: rest →
      (setting.language.lex setting.text v.position.bytes
        (setting.table.lexMode v.stack.state)).Same token

/-- There may always be as many versions as the actions of an entry make. -/
def KeepsForks (setting : ParseSetting) (start : ParseState) : Prop :=
  ∀ s v, setting.Operates start s v →
    s.versions.length + ((setting.table.actionList v.stack.state
      (setting.fetch s v).1.symbol).length - 1) ≤ setting.options.maxVersions

variable {g : Grammar} {policy : ConflictPolicy} {setting : ParseSetting} {tokens : List Lexed}
  {start s : ParseState} {i : Nat} {v : Version}

/-! ### One operation -/

theorem onRun_fetch (hs : s.Sound (setting.reaching none)) (hv : v.OnRun setting tokens)
    (halike : v.lookahead = none → ∀ token rest,
      Lexed.behind tokens v.position.bytes = token :: rest →
      (setting.language.lex setting.text v.position.bytes
        (setting.table.lexMode v.stack.state)).Same token) :
    { v with lookahead := some (setting.fetch s v).1 }.OnRun setting tokens := by
  rw [fetch]
  cases hlookahead : v.lookahead with
  | some t =>
      have hself : { v with lookahead := some t } = v := by rw [← hlookahead]
      simp only [hself]
      exact hv
  | none =>
      simp only
      rw [nextToken_of_fresh (reuse_eq_none hs)]
      exact hv.fetch (lex_spec hs _ _).1 (halike hlookahead)

/-- An operation keeps the runs covered. -/
theorem Reading.covers_advance (h : setting.Reading g policy tokens)
    (haccepts : (setting.table.acceptingTotals (tokens.map (·.symbol))).Nonempty)
    (hs : s.Sound (setting.reaching none)) (hcovers : s.Covers setting tokens)
    (hv : s.versions[i]? = some v)
    (halike : v.lookahead = none → ∀ token rest,
      Lexed.behind tokens v.position.bytes = token :: rest →
      (setting.language.lex setting.text v.position.bytes
        (setting.table.lexMode v.stack.state)).Same token)
    (hroom : s.versions.length + ((setting.table.actionList v.stack.state
      (setting.fetch s v).1.symbol).length - 1) ≤ setting.options.maxVersions) :
    (setting.advance s i).2 = none ∧
      (setting.advance s i).1.versions.length ≤ setting.options.maxVersions ∧
      (setting.advance s i).1.Covers setting tokens := by
  have hthreads := threads_removeVersion hv
  have hon : v.OnRun setting tokens :=
    hcovers.onRun (.going v) (hthreads.subset List.mem_cons_self)
  have hw := onRun_fetch hs hon halike
  have hothers : setting.table.actionList v.stack.state (setting.fetch s v).1.symbol = [] →
      (setting.fetch s v).1.flags.extra = false → s.isForked = true ∨ s.accepted ≠ [] := by
    intro hnone hextra
    by_contra hsole
    obtain ⟨hforked, haccepted⟩ := not_or.1 hsole
    obtain ⟨hversions, _⟩ := ParseState.eq_singleton (Bool.eq_false_iff.2 hforked) hv
    obtain ⟨total, htotal⟩ := haccepts
    obtain ⟨r, hr, hreaches⟩ := hcovers.reaches total htotal
    rw [ParseState.threads, hversions, not_not.1 haccepted] at hr
    obtain rfl := List.mem_singleton.1 hr
    obtain ⟨r, hr, _⟩ := hw.exists_reaches h rfl (.drop hnone hextra) hreaches
    exact List.not_mem_nil hr
  obtain ⟨hstatus, hlength, results, hcontinues, hperm⟩ :=
    h.compiled.continues_advance hs hv hroom hothers
  refine ⟨hstatus, hlength, fun r hr => ?_, fun total htotal => ?_⟩
  · rcases List.mem_append.1 (hperm.subset hr) with hr | hr
    · exact hw.continues h rfl hcontinues r hr
    · exact hcovers.onRun r (hthreads.subset (List.mem_cons_of_mem _ hr))
  · obtain ⟨r, hr, hreaches⟩ := hcovers.reaches total htotal
    rcases List.mem_cons.1 (hthreads.symm.subset hr) with rfl | hr
    · obtain ⟨r, hr, hreaches⟩ := hw.exists_reaches h rfl hcontinues hreaches
      exact ⟨r, hperm.symm.subset (List.mem_append_left _ hr), hreaches⟩
    · exact ⟨r, hperm.symm.subset (List.mem_append_right _ hr), hreaches⟩

theorem Reading.covers_condense (h : setting.Reading g policy tokens) (hcovers : s.Covers setting tokens)
    (hlength : s.versions.length ≤ setting.options.maxVersions) :
    { s with versions := Version.condense setting.options.maxVersions s.versions }.Covers setting
      tokens := by
  have hall : ∀ v ∈ s.versions, v.OnRun setting tokens := fun v hv =>
    hcovers.onRun (.going v) (List.mem_append_left _ (List.mem_map_of_mem hv))
  refine ⟨fun r hr => ?_, fun total htotal => ?_⟩
  · rcases List.mem_append.1 hr with hr | hr
    · obtain ⟨v, hv, rfl⟩ := List.mem_map.1 hr
      exact hall v (Version.mem_of_mem_condense hv)
    · exact hcovers.onRun r (List.mem_append_right _ hr)
  · obtain ⟨r, hr, hreaches⟩ := hcovers.reaches total htotal
    rcases List.mem_append.1 hr with hr | hr
    · obtain ⟨v, hv, rfl⟩ := List.mem_map.1 hr
      obtain ⟨w, hw, hstands⟩ := Version.exists_mem_condense Version.StandsFor.refl
        (fun _ _ _ => Version.StandsFor.trans) (fun _ _ => Version.StandsFor.of_merges h) hlength hall v hv
      exact ⟨.going w, List.mem_append_left _ (List.mem_map_of_mem hw), hstands.reaches hreaches⟩
    · exact ⟨r, List.mem_append_right _ hr, hreaches⟩

/-! ### Runs -/

/-- The version that is chosen weighs most. -/
theorem Reading.exists_best (h : setting.Reading g policy tokens) {accepted : List Accepted}
    (hall : ∀ a ∈ accepted, a.OnRun setting tokens) (hne : accepted ≠ []) :
    ∃ best, Accepted.best? accepted = some best ∧ best ∈ accepted ∧
      ∀ a ∈ accepted, a.dynamicPrecedence.toInt ≤ best.dynamicPrecedence.toInt := by
  cases accepted with
  | nil => exact absurd rfl hne
  | cons first rest =>
      refine ⟨_, rfl, mem_foldl_choose Accepted.better first rest,
        le_foldl_choose (f := fun a : Accepted => a.dynamicPrecedence.toInt) ?_⟩
      intro a ha b hb
      obtain ⟨v, hv, rfl, _⟩ := hall a ha
      obtain ⟨w, hw, rfl, _⟩ := hall b hb
      exact hv.better_iff h hw

/-- The root over an accepted version weighs what its run has collected. -/
theorem Reading.root_of_accepted (h : setting.Reading g policy tokens) {a : Accepted}
    (ha : a.OnRun setting tokens) (id : Nat) :
    (setting.buildRoot id a.trees [] a.trailing).1.flags.hasError = false ∧
      (setting.buildRoot id a.trees [] a.trailing).1.head.dynamicPrecedence = a.dynamicPrecedence := by
  obtain ⟨v, hv, rfl, t, ht, haccept⟩ := ha
  obtain ⟨hfrom, _⟩ := Table.compile_eq_ok h.compiled.table
  have hpath := h.compiled.onPath_of_fresh hv.reached
  have hleaf := (isFresh_of_reached hv.reached).lookahead t ht
  have hhas := h.compiled.has_of_actsOn hpath (.token t ht hleaf)
  have hsole := hpath.stack.structuralSymbols_of_accept h.compiled.grammar h.compiled.table
    h.compiled.fit hhas haccept
  rw [← hfrom.startSymbol] at hsole
  have happlied : ∀ tree ∈ v.stack.trees, Applied setting.table tree := by
    intro tree htree
    obtain ⟨frame, hframe, rfl⟩ := List.mem_map.1 (List.mem_reverse.1 htree)
    exact hpath.stack.applied frame hframe
  obtain ⟨hok, hweight⟩ := plain_buildRoot (h.compiled.fitTable.keepWeight hfrom h.even)
    h.compiled.fitTable id v.accepted.trailing hv.plain.tree happlied hsole
  exact ⟨hok, hweight.trans hv.plain.weight.symm⟩

/-- What is accepted has collected the total of a run that accepts. -/
theorem Reading.mem_acceptingTotals (h : setting.Reading g policy tokens) {a : Accepted}
    (ha : a.OnRun setting tokens) :
    a.dynamicPrecedence.toInt ∈ setting.table.acceptingTotals (tokens.map (·.symbol)) := by
  obtain ⟨v, hv, rfl, t, ht, haccept⟩ := ha
  obtain ⟨below, hstates⟩ := hv.exists_states h
  obtain ⟨token, rest, hbehind, hsymbol, _⟩ := hv.lookahead t ht
  have heof : token.symbol = Symbol.eof := by
    rw [← hsymbol]
    exact hv.of_accept h ht haccept
  have hsuffix := Lexed.behind_suffix tokens v.position.bytes
  rw [hbehind] at hsuffix
  have hrun := hv.run
  rw [hstates, hbehind, (h.tokenizes.eq_nil_iff hsuffix).2 heof, List.map_singleton, ← hsymbol] at hrun
  exact ⟨v.stack.state, below, t.symbol, hrun, haccept⟩

/-- When no version is left, the best of those accepted is chosen. -/
theorem Reading.isBest_finish (h : setting.Reading g policy tokens)
    (haccepts : (setting.table.acceptingTotals (tokens.map (·.symbol))).Nonempty)
    (hcovers : s.Covers setting tokens) (hnone : s.versions = []) :
    (setting.finish s).1.IsBest setting.table (tokens.map (·.symbol)) := by
  have hended : ∀ total ∈ setting.table.acceptingTotals (tokens.map (·.symbol)),
      ∃ a ∈ s.accepted, total ≤ a.dynamicPrecedence.toInt := by
    intro total htotal
    obtain ⟨r, hr, hreaches⟩ := hcovers.reaches total htotal
    rw [ParseState.threads, hnone] at hr
    obtain ⟨a, ha, rfl⟩ := List.mem_map.1 hr
    exact ⟨a, ha, hreaches⟩
  have hall : ∀ a ∈ s.accepted, a.OnRun setting tokens := fun a ha =>
    hcovers.onRun (.ended a) (List.mem_append_right _ (List.mem_map_of_mem ha))
  obtain ⟨best, hbest, hmem, hmax⟩ := h.exists_best hall (by
    obtain ⟨total, htotal⟩ := haccepts
    obtain ⟨a, ha, _⟩ := hended total htotal
    exact List.ne_nil_of_mem ha)
  obtain ⟨hok, hweight⟩ := h.root_of_accepted (hall best hmem) s.nextId
  rw [finish, hbest]
  refine ⟨rfl, hok, ?_, fun total htotal => ?_⟩
  · simp only
    rw [hweight]
    exact h.mem_acceptingTotals (hall best hmem)
  · simp only
    rw [hweight]
    obtain ⟨a, ha, hle⟩ := hended total htotal
    exact hle.trans (hmax a ha)

theorem Reading.isBest_run (h : setting.Reading g policy tokens)
    (haccepts : (setting.table.acceptingTotals (tokens.map (·.symbol))).Nonempty)
    (halike : setting.SeesAlike start tokens) (hforks : setting.KeepsForks start)
    (hs : s.Sound (setting.reaching none)) (hpasses : setting.Passes start s)
    (hcovers : s.Covers setting tokens) {limit : Nat}
    (hends : (setting.run limit s).1.status ≠ .cancelled) :
    (setting.run limit s).1.IsBest setting.table (tokens.map (·.symbol)) := by
  induction limit generalizing s with
  | zero => exact absurd rfl hends
  | succ limit ih =>
      have hcancelled : setting.cancelled = false := by
        by_contra hcancelled
        rw [Bool.not_eq_false] at hcancelled
        rw [run, if_pos hcancelled] at hends
        exact hends rfl
      cases hnext : s.nextVersion? with
      | none =>
          rw [run_of_done hcancelled hnext]
          exact h.isBest_finish haccepts hcovers (s.eq_nil_of_nextVersion?_eq_none hnext)
      | some i =>
          obtain ⟨v, hv⟩ := s.exists_of_nextVersion? hnext
          have hoperates : setting.Operates start s v := ⟨hpasses, i, hnext, hv⟩
          obtain ⟨hstatus, hlength, hcovers⟩ :=
            h.covers_advance haccepts hs hcovers hv (halike s v hoperates) (hforks s v hoperates)
          rw [run_of_goes_on hcancelled hnext hstatus] at hends ⊢
          exact ih (sound_advance hs i).condense (.next s i hpasses hnext hstatus)
            (h.covers_condense hcovers hlength) hends

theorem Reading.covers_start (h : setting.Reading g policy tokens) (id : Nat) :
    (ParseState.start setting.table.startState none id).Covers setting tokens := by
  have hstart := Version.OnRun.start h
  refine ⟨fun r hr => ?_, fun total htotal => ?_⟩
  · rw [List.mem_singleton.1 hr]
    exact hstart
  · refine ⟨.going setting.startVersion, List.mem_singleton_self _, total, ?_, ?_⟩
    · have hbehind : Lexed.behind tokens setting.startVersion.position.bytes = tokens :=
        Lexed.behind_zero tokens
      rw [hbehind]
      exact htotal
    · exact le_of_eq (Int.zero_add total).symm

end ParseSetting

theorem ParseSetting.Operates.mem_passed {setting : ParseSetting} {start s : ParseState} {v : Version}
    {limit : Nat} (h : setting.Operates start s v) (hlimit : (setting.passed limit start).length < limit) :
    s ∈ setting.passed limit start ∧ v ∈ s.nextVersion?.bind fun i => s.versions[i]? := by
  obtain ⟨i, hnext, hv⟩ := h.version
  exact ⟨h.passes.mem_passed hlimit, Option.bind_eq_some_iff.2 ⟨i, hnext, hv⟩⟩

/-! ### Parsers -/

variable {d : GrammarDef} {policy : ConflictPolicy} {l : Language} {scanner : Option ExternalScanner}
  {number : Nat} {p : Parser}

/-- Where no fork is cut short, the lexer gives the same token in every mode in which it is asked, and
nothing overflows, a parse that ends gives a tree without errors if any run over the tokens accepts,
and no run that accepts collects more than the tree weighs. -/
theorem Parser.isBest_parse (hl : Language.load d policy = .ok l) (hfit : l.table.EntriesFit)
    (hapart : l.table.ExtrasApart) (hscanner : ∀ x ∈ scanner, x.ReadsForward)
    (hp : p.language = { l with scanner := scanner, id := number })
    (hbases : p.bases = RepetitionBases.ofTable l.table) {text : ByteArray} {id : Nat}
    {tokens : List Lexed} (htokens : (p.setting text).Tokenizes 0 tokens)
    (halike : (p.setting text).SeesAlike (.start l.table.startState none id) tokens)
    (hforks : (p.setting text).KeepsForks (.start l.table.startState none id))
    (htotals : l.table.TotalsFit (tokens.map (·.symbol)))
    (hextras : l.table.ShowsExtras (tokens.map (·.symbol)))
    (hends : (p.parse text none id).tree.status ≠ .cancelled)
    (haccepts : (l.table.acceptingTotals (tokens.map (·.symbol))).Nonempty) :
    (p.parse text none id).tree.IsBest l.table (tokens.map (·.symbol)) := by
  obtain ⟨g, hg, _⟩ := Language.exists_compiledFrom_of_load hl
  have hcompiled := Parser.setting_compiledFrom_of_load hl hfit hapart hp hbases hg text
  obtain ⟨hfrom, _⟩ := Table.compile_eq_ok hcompiled.table
  have htable : (p.setting text).table = l.table := by
    rw [ParseSetting.table, show (p.setting text).language = _ from hp]
  rw [← htable] at halike hforks htotals hextras haccepts ⊢
  have hreading : (p.setting text).Reading g policy tokens := by
    refine ⟨Parser.setting_wellFormed hl hscanner hp text, hcompiled, Grammar.repeatsEvenly_of_load hg,
      htokens, ?_, htotals, hextras⟩
    rw [Table.symbolInfo, if_neg (by decide), hfrom.symbols]
    exact Grammar.extra_eof_of_load hg
  exact hreading.isBest_run haccepts halike hforks (ParseSetting.sound_start none id) .start
    (hreading.covers_start id) hends

/-! ### A fork over one token -/

open KernelFollows (states)

def GrammarDef.forked : GrammarDef :=
  { name := "forked"
    rules := [("s", .choice [.symbol "a", .symbol "b"]), ("a", .weighted 1 (.literal "t")),
      ("b", .weighted 2 (.literal "t"))]
    extras := some []
    conflicts := [["a", "b"]] }

def Grammar.forked : Grammar :=
  { name := "forked"
    symbols := #[⟨"end", .terminal, false, false, false⟩, ⟨"t", .terminal, true, false, false⟩,
      ⟨"start'", .auxiliary, false, false, false⟩, ⟨"s", .nonterminal, true, true, false⟩,
      ⟨"a", .nonterminal, true, true, false⟩, ⟨"b", .nonterminal, true, true, false⟩]
    terminalCount := 2
    start := ⟨3⟩
    productions := #[⟨⟨2⟩, #[{ symbol := ⟨3⟩ }], none, 0⟩, ⟨⟨3⟩, #[{ symbol := ⟨4⟩ }], none, 0⟩,
      ⟨⟨3⟩, #[{ symbol := ⟨5⟩ }], none, 0⟩, ⟨⟨4⟩, #[{ symbol := ⟨1⟩ }], none, 1⟩,
      ⟨⟨5⟩, #[{ symbol := ⟨1⟩ }], none, 2⟩]
    fields := #[]
    tokens := #[⟨⟨1⟩, "t", true⟩]
    skips := []
    extras := []
    externals := #[]
    word := none
    keywords := []
    conflicts := [[⟨4⟩, ⟨5⟩]]
    tokenPrecedence := []
    auxOrigin := []
    warnings := [] }

theorem load_forked : Grammar.load .forked = .ok .forked := by
  cbv

theorem states_forked : states Grammar.forked
    = ⟨#[[⟨0, 0⟩], [⟨3, 1⟩, ⟨4, 1⟩], [⟨0, 1⟩], [⟨1, 1⟩], [⟨2, 1⟩]],
      #[[(⟨1⟩, 1), (⟨3⟩, 2), (⟨4⟩, 3), (⟨5⟩, 4)], [], [], [], []]⟩ := by
  have hmoves₀ : Lr0.moves .forked Grammar.forked.productionsByLhs [⟨0, 0⟩]
      = [(⟨1⟩, [⟨3, 1⟩, ⟨4, 1⟩]), (⟨3⟩, [⟨0, 1⟩]), (⟨4⟩, [⟨1, 1⟩]), (⟨5⟩, [⟨2, 1⟩])] := by
    decide
  have hmoves₁ : Lr0.moves .forked Grammar.forked.productionsByLhs [⟨3, 1⟩, ⟨4, 1⟩] = [] := by
    decide
  have hends : ∀ p < 5, Lr0.moves .forked Grammar.forked.productionsByLhs [⟨p, 1⟩] = [] := by
    decide
  have hcount : Lr0.itemCount .forked = 10 := by decide
  simp [states, Lr0.ofGrammar, hmoves₀, hmoves₁, hends, hcount, Lr0.Builder.run,
    Lr0.startKernel, Lr0.Builder.addTransitions, Lr0.Builder.addState]

def Table.forked : Table :=
  { name := "forked"
    symbols := Grammar.forked.symbols
    terminalCount := 2
    startSymbol := ⟨3⟩
    fields := #[]
    productions := Grammar.forked.productions.map Compile.productionInfo
    stateCount := 5
    actions := #[.error, .shift 1, .error, .goto 2, .goto 3, .goto 4,
      .ambig 0, .error, .error, .error, .error, .error,
      .accept, .error, .error, .error, .error, .error,
      .reduce 1, .error, .error, .error, .error, .error,
      .reduce 2, .error, .error, .error, .error, .error]
    ambigs := #[#[.reduce 3, .reduce 4]]
    fragile := [(1, 3), (1, 4)]
    breakdown := []
    lexModes := #[#[⟨0⟩, ⟨1⟩], #[⟨1⟩], #[⟨0⟩]]
    stateModes := #[1, 2, 2, 2, 2]
    lexical := { tokens := #[⟨⟨1⟩, "t", true⟩] }
    extras := #[]
    externals := #[]
    resolutions := #[⟨1, ⟨0⟩, .ambig 0, [], .declaredConflict⟩]
    kernels := #[#[⟨0, 0⟩], #[⟨3, 1⟩, ⟨4, 1⟩], #[⟨0, 1⟩], #[⟨1, 1⟩], #[⟨2, 1⟩]]
    startState := 0 }

theorem compile_forked : Table.compile .forked .strict = .ok .forked := by
  have hbuilt : (match Compile.buildRows (LookaheadTables.ofGrammar .forked) (states .forked) .strict with
    | .ok rows => rows.actions == Table.forked.actions && rows.ambigs == Table.forked.ambigs &&
        rows.fragile == [(1, 4), (1, 3)] && rows.breakdown == [] &&
        rows.resolutions == Table.forked.resolutions.toList
    | .error _ => false) = true := by
    rw [states_forked]
    decide +kernel
  have hmodes : Compile.lexModes .forked Table.forked.actions 5
      = (Table.forked.lexModes, Table.forked.stateModes) := by
    simp +decide [Compile.lexModes, Grammar.forked, List.range_succ, Table.forked,
      SymbolSet.ofList, Symbol.ofIndex, Symbol.index]
  have hsorted : Compile.sortFragile [(1, 4), (1, 3)] = Table.forked.fragile := by cbv
  split at hbuilt
  · rename_i rows hrows
    simp only [Bool.and_eq_true, beq_iff_eq] at hbuilt
    obtain ⟨⟨⟨⟨hactions, hambigs⟩, hfragile⟩, hbreakdown⟩, hresolutions⟩ := hbuilt
    have hstates : Lr0.ofGrammar .forked = _ := states_forked
    rw [Table.compile]
    simp only [hrows, bind, Except.bind, hactions, hambigs, hfragile, hbreakdown, hresolutions, hsorted]
    rw [hstates, show Array.size #[[(⟨0, 0⟩ : Item)], [⟨3, 1⟩, ⟨4, 1⟩], [⟨0, 1⟩], [⟨1, 1⟩], [⟨2, 1⟩]] = 5
      from rfl, hmodes]
    refine congrArg Except.ok ?_
    decide +kernel
  · cases hbuilt

def Lexer.forked : Lexer where
  automaton := Pattern.Automaton.ofExprs [.byte (Pattern.ByteSet.singleton 116)]
  patterns := #[.token ⟨1⟩ true]
  terminalCount := 2
  valid := #[SymbolSet.ofList [⟨0⟩, ⟨1⟩], SymbolSet.ofList [⟨1⟩], SymbolSet.ofList [⟨0⟩]]
  word := none
  keywords := {}
  externals := #[]

def Language.forked : Language := { table := .forked, lexer := .forked }

theorem Lexer.ofTable_forked : Lexer.ofTable .forked = .ok .forked := by
  have hsources : Table.forked.lexical.tokens.toList.map (·.pattern) ++
      Table.forked.lexical.skips.toList = ["t"] := rfl
  have hread : ["t"].mapM Pattern.read? = some [.byte (Pattern.ByteSet.singleton 116)] := by
    cbv
  rw [ofTable]
  simp only [hsources, hread]
  simp [Lexer.forked, Table.forked, wordPattern]

theorem Language.loads_forked : Language.load .forked .strict = .ok .forked := by
  rw [load, load_forked]
  change ofGrammar .forked .strict = _
  rw [ofGrammar, compile_forked]
  change ofTable .forked [] = _
  rw [ofTable, Lexer.ofTable_forked]
  rfl

theorem extra_forked : ∀ x ∈ [(⟨0⟩ : Symbol), ⟨1⟩], (Table.forked.symbolInfo x).extra = false := by
  decide

theorem actionList_forked : Table.forked.actionList 0 ⟨1⟩ = [.shift 1] ∧
    Table.forked.actionList 1 ⟨0⟩ = [.reduce 3, .reduce 4] ∧
    Table.forked.actionList 2 ⟨0⟩ = [.accept] ∧ Table.forked.actionList 3 ⟨0⟩ = [.reduce 1] ∧
    Table.forked.actionList 4 ⟨0⟩ = [.reduce 2] := by
  decide

theorem reduceStates_forked : Recovery.reduceStates .forked 3 [1, 0] = some [3, 0] ∧
    Recovery.reduceStates .forked 4 [1, 0] = some [4, 0] ∧
    Recovery.reduceStates .forked 1 [3, 0] = some [2, 0] ∧
    Recovery.reduceStates .forked 2 [4, 0] = some [2, 0] := by
  cbv

theorem weights_forked : (Table.forked.production 1).dynamicPrecedence.toInt = 0 ∧
    (Table.forked.production 2).dynamicPrecedence.toInt = 0 ∧
    (Table.forked.production 3).dynamicPrecedence.toInt = 1 ∧
    (Table.forked.production 4).dynamicPrecedence.toInt = 2 := by
  cbv
  exact ⟨rfl, rfl, rfl, rfl⟩

section Forked

variable {q : StateId} {total : Int} {states : List StateId} {rest : List Symbol}

theorem total_whole_forked (h : Table.forked.Runs [2, 0] [⟨0⟩] total states rest) : total = 0 := by
  rcases h.first (extra_forked ⟨0⟩ (by simp)) with h | ⟨next, haction, _⟩ | ⟨p, after, left, haction, _⟩
  · exact h
  · simp [actionList_forked] at haction
  · simp [actionList_forked] at haction

theorem total_part_forked (hq : q = 3 ∨ q = 4)
    (h : Table.forked.Runs [q, 0] [⟨0⟩] total states rest) : total = 0 := by
  rcases h.first (extra_forked ⟨0⟩ (by simp)) with h | ⟨next, haction, _⟩ |
    ⟨p, after, left, haction, hp, h, rfl⟩
  · exact h
  · rcases hq with rfl | rfl <;> simp [actionList_forked] at haction
  · rcases hq with rfl | rfl <;>
      simp only [actionList_forked, List.mem_singleton, Action.reduce.injEq] at haction
    all_goals
      subst haction
      simp only [reduceStates_forked, Option.some.injEq] at hp
      subst hp
      simp only [weights_forked, total_whole_forked h, Int.add_zero]

theorem total_token_forked (h : Table.forked.Runs [1, 0] [⟨0⟩] total states rest) :
    0 ≤ total ∧ total ≤ 2 := by
  rcases h.first (extra_forked ⟨0⟩ (by simp)) with rfl | ⟨next, haction, _⟩ |
    ⟨p, after, left, haction, hp, h, rfl⟩
  · decide
  · simp [actionList_forked] at haction
  · simp only [actionList_forked, List.mem_cons, Action.reduce.injEq, List.not_mem_nil, or_false] at haction
    rcases haction with rfl | rfl <;> simp only [reduceStates_forked, Option.some.injEq] at hp <;> subst hp
    · rw [total_part_forked (.inl rfl) h, weights_forked.2.2.1]
      decide
    · rw [total_part_forked (.inr rfl) h, weights_forked.2.2.2]
      decide

end Forked

/-- A run reads the token, reduces it to either part and the part to the whole. -/
theorem totalsFit_forked : Table.forked.TotalsFit [⟨1⟩, ⟨0⟩] := by
  intro total states rest h
  have hstart : Table.forked.Runs [0] [⟨1⟩, ⟨0⟩] total states rest := h
  rcases hstart.first (extra_forked ⟨1⟩ (by simp)) with rfl | ⟨next, haction, h⟩ |
    ⟨p, after, left, haction, _⟩
  · decide
  · simp only [actionList_forked, List.mem_singleton, Action.shift.injEq] at haction
    subst haction
    have hbounds := total_token_forked h
    omega
  · simp [actionList_forked] at haction

theorem nonempty_acceptingTotals_forked : (Table.forked.acceptingTotals [⟨1⟩, ⟨0⟩]).Nonempty := by
  have hreads : .shift 1 ∈ Table.forked.actionList 0 ⟨1⟩ := by simp [actionList_forked]
  have hpart : .reduce 4 ∈ Table.forked.actionList 1 ⟨0⟩ := by simp [actionList_forked]
  have hwhole : .reduce 2 ∈ Table.forked.actionList 4 ⟨0⟩ := by simp [actionList_forked]
  have hruns := Table.Runs.shift 0 1 [] _ ⟨1⟩ [⟨0⟩] [⟨0⟩] _ hreads
    (.reduce 1 [0] _ _ ⟨0⟩ [] [⟨0⟩] 4 _ hpart reduceStates_forked.2.1
      (.reduce 4 [0] _ _ ⟨0⟩ [] [⟨0⟩] 2 _ hwhole reduceStates_forked.2.2.2 (.refl _ _)))
  exact ⟨_, 2, [0], ⟨0⟩, hruns, by simp [actionList_forked]⟩

/-- The token can be read in two ways, which weigh one and two. The parse forks and gives the second. -/
theorem isBest_parse_forked : Language.load .forked .strict = .ok .forked ∧
    let p := Parser.ofLanguage .forked
    let tokens := [Language.forked.lex "t".toUTF8 0 1, Language.forked.lex "t".toUTF8 1 2]
    let parsed := p.parse "t".toUTF8 none 0
    (p.setting "t".toUTF8).Tokenizes 0 tokens ∧ parsed.stats.ambigs = 1 ∧
      parsed.tree.root.head.dynamicPrecedence = 2 ∧
      parsed.tree.IsBest .forked (tokens.map (·.symbol)) := by
  refine ⟨Language.loads_forked, ?_⟩
  intro p tokens parsed
  let setting := p.setting "t".toUTF8
  let start : ParseState := .start Table.forked.startState none 0
  have hsymbols : tokens.map (·.symbol) = [⟨1⟩, ⟨0⟩] := by decide +kernel
  have htokens : setting.Tokenizes 0 tokens := by
    have hbytes : 0 + (setting.language.lex setting.text 0 1).bytes = 1 := by decide +kernel
    refine .token 0 1 [Language.forked.lex "t".toUTF8 1 2] (by decide +kernel) ?_
    rw [hbytes]
    exact .eof 1 2 (by decide +kernel)
  have hlimit : (setting.passed 12 start).length < 12 := by decide +kernel
  have hpassed : ∀ s ∈ setting.passed 12 start, ∀ v ∈ s.nextVersion?.bind fun i => s.versions[i]?,
      s.versions.length + ((setting.table.actionList v.stack.state
          (setting.fetch s v).1.symbol).length - 1) ≤ setting.options.maxVersions ∧
        (v.lookahead.isNone = true → ∀ token ∈ (Lexed.behind tokens v.position.bytes).head?,
          (setting.language.lex setting.text v.position.bytes
            (setting.table.lexMode v.stack.state)).symbol = token.symbol ∧
          (setting.language.lex setting.text v.position.bytes
            (setting.table.lexMode v.stack.state)).bytes = token.bytes) := by
    decide +kernel
  have halike : setting.SeesAlike start tokens := by
    intro s v hoperates hnone token rest hbehind
    obtain ⟨hs, hv⟩ := hoperates.mem_passed hlimit
    obtain ⟨hsymbol, hbytes⟩ := (hpassed s hs v hv).2 (by rw [hnone]; rfl) token (by rw [hbehind]; rfl)
    exact ⟨hsymbol, hbytes⟩
  have hforks : setting.KeepsForks start := by
    intro s v hoperates
    obtain ⟨hs, hv⟩ := hoperates.mem_passed hlimit
    exact (hpassed s hs v hv).1
  have hapart : Table.forked.ExtrasApart := by
    change ∀ p ∈ Table.forked.productions, ∀ s ∈ p.rhs, (Table.forked.symbolInfo s).extra = false
    decide +kernel
  have hnone : ∀ x ∈ (none : Option ExternalScanner), x.ReadsForward := by
    intro x hx
    cases hx
  exact ⟨htokens, by decide +kernel, by decide +kernel,
    Parser.isBest_parse Language.loads_forked ⟨⟨by decide +kernel, by decide +kernel⟩, by decide +kernel⟩
      hapart hnone rfl rfl htokens halike hforks (hsymbols ▸ totalsFit_forked) (.inl (by decide +kernel))
      (by decide +kernel) (hsymbols ▸ nonempty_acceptingTotals_forked)⟩

end IncrementalLR
