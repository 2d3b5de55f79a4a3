import IncrementalLR.Parse.Parser
import IncrementalLR.Proofs.Grammar.References
import IncrementalLR.Proofs.Language
import IncrementalLR.Proofs.Parse.Path
import IncrementalLR.Proofs.Parse.Run
import IncrementalLR.Proofs.Parse.Spanning
import IncrementalLR.Proofs.Table.RoundTrip
import IncrementalLR.Proofs.Table.TokenStart

/-!
# Parses apply productions

The stack of a version is a path of the automaton over subtrees whose nodes have their productions,
and so is the lookahead, whether the lexer gave it or an old tree. Moves keep it so, and no reduction
that the table says is out of place. So every node of a tree is a correct application of its
production.
-/

namespace IncrementalLR

open KernelFollows (states)

open Subtree (nodesAt nodesAmong interior ofSkipped balanceWhere structuralSymbols role Applies IsJoined)

/-- Every node with a production is over the right-hand side of it. A node without one is skipped text
or joins two parts of a repetition, or it is the root. -/
structure Tree.FollowsProductions (tree : Tree) : Prop where
  productions : ∀ q ∈ nodesAt Length.zero tree.root, ∀ p ∈ q.subtree.head.production,
    q.subtree.Applies tree.language.table p
  others : ∀ q ∈ nodesAmong Length.zero tree.root.children, q.subtree.isLeaf = false →
    q.subtree.head.production = none →
    q.subtree.symbol = Symbol.error ∨ q.subtree.IsJoined tree.language.table

/-- A tree that came about by parses and edits. -/
inductive Tree.Made (l : Language) : Tree → Prop
  | parse (p : Parser) (text : ByteArray) (old : Option Tree) (id : Nat) (hp : p.language = l)
      (hbases : p.bases = RepetitionBases.ofTable l.table)
      (hold : ∀ tree ∈ old, tree.language.isSame l = true → Made l tree) :
      Made l (p.parse text old id).tree
  | edit (tree : Tree) (change : InputEdit) (id : Nat) (h : Made l tree) :
      Made l (tree.edit change id).1

/-- What the parser needs of the table and its tokens. -/
structure ParseSetting.CompiledFrom (setting : ParseSetting) (g : Grammar) (policy : ConflictPolicy) :
    Prop where
  grammar : g.WellFormed
  extras : Symbol.eof ∉ g.extras
  table : Table.compile g policy = .ok setting.table
  fit : setting.table.EntriesFit
  apart : setting.table.ExtrasApart
  bases : setting.bases = RepetitionBases.ofTable setting.table
  tokens : ∀ position mode,
    setting.table.HasToken (setting.language.lex setting.text position mode).symbol

/-- A node by whose first leaf nothing can be shifted. -/
structure Subtree.IsIdle (table : Table) (t : Subtree) : Prop where
  isLeaf : t.isLeaf = false
  has : table.Has t.head.firstLeaf.1
  idle : table.isTerminal t.head.firstLeaf.1 = false ∨
    (table.symbolInfo t.head.firstLeaf.1).extra = true

/-- The stack of the version is a path, and its lookahead can be on a path or is not shifted. -/
structure Version.OnPath (g : Grammar) (table : Table) (v : Version) : Prop where
  stack : v.stack.Path g table
  lookahead : ∀ t ∈ v.lookahead, Applied table t ∨ t.IsIdle table

/-- A cursor stands in front of the root of an old tree, or of subtrees on paths. -/
theorem ReuseCursor.Reaches.applied {table : Table} {root : Subtree} (hroot : AppliedRoot table root)
    {c : ReuseCursor} (h : (ReuseCursor.ofRoot root).Reaches c) :
    c.rest = [root] ∨ ∀ t ∈ c.rest, Applied table t :=
  h.eq_root_or_forall_mem (fun _ ht => ht.child) hroot.children

namespace ParseSetting

variable {g : Grammar} {policy : ConflictPolicy} {setting : ParseSetting} {old : Option ReuseCursor}
  {v v' : Version} {t : Subtree} {trees tail : List Subtree} {s : Symbol}

theorem CompiledFrom.fitTable (h : setting.CompiledFrom g policy) :
    setting.bases.FitTable setting.table := by
  obtain ⟨hfrom, _⟩ := Table.compile_eq_ok h.table
  refine ⟨h.bases, h.fit.productions, ?_⟩
  intro p hp
  rw [hfrom.productions] at hp
  obtain ⟨production, hproduction, rfl⟩ := Array.mem_map.1 hp
  rw [Table.isTerminal, hfrom.terminalCount, decide_eq_false_iff_not, Nat.not_lt]
  exact (h.grammar.lhs production hproduction).1

/-! ### Tokens and old trees -/

theorem CompiledFrom.applied_of_lexes (h : setting.CompiledFrom g policy) {position : Nat}
    {mode : LexMode} (hlex : setting.Lexes position mode t) : Applied setting.table t := by
  obtain ⟨id, rfl⟩ := hlex
  exact applied_ofToken id _ (h.tokens position mode)

theorem CompiledFrom.applied_of_lexesAll (h : setting.CompiledFrom g policy) {position : Length}
    (hlex : setting.LexesAll position trees) : ∀ t ∈ trees, Applied setting.table t := by
  induction hlex with
  | nil => exact nofun
  | cons position tree rest htree _ ih =>
      exact List.forall_mem_cons.2 ⟨h.applied_of_lexes htree, ih⟩

/-- What is taken over from an old tree can be on a path, unless it is a root without a production. -/
theorem CompiledFrom.applied_or_idle_of_accepts (h : setting.CompiledFrom g policy) {root : Subtree}
    (hroot : AppliedRoot setting.table root) {cursor : ReuseCursor}
    (hcursor : (ReuseCursor.ofRoot root).Reaches cursor) (ht : cursor.rest.head? = some t)
    {stack : Stack} (hpath : stack.Path g setting.table)
    (haccepts : ReuseCursor.accepts setting.table stack.state t = true) :
    Applied setting.table t ∨ t.IsIdle setting.table := by
  rcases hcursor.applied hroot with hrest | hall
  · rw [hrest] at ht
    obtain rfl : root = t := Option.some.inj ht
    by_cases hproduction : root.head.production = none
    · obtain ⟨_, herror, _⟩ := intact_of_accepts haccepts
      refine .inr ⟨hroot.node.isLeaf, hroot.node.firstLeaf, ?_⟩
      rcases hroot.firstLeaf hproduction herror with hfirst | hextra
      · by_contra hread
        simp only [not_or, Bool.not_eq_false, Bool.not_eq_true] at hread
        obtain ⟨hterminal, hextra⟩ := hread
        obtain ⟨hfrom, _⟩ := Table.compile_eq_ok h.table
        obtain ⟨rest, hstates⟩ := hpath.exists_structuralStates
        have hstackPath := hpath.stackPath hfrom
        rw [hstates] at hstackPath
        rw [hfirst] at hterminal hextra
        rw [Table.isTerminal, hfrom.startSymbol, hfrom.terminalCount] at hterminal
        simp only [ReuseCursor.accepts, hfirst, hextra, Bool.and_eq_true, Bool.false_or,
          bne_iff_ne, beq_iff_eq] at haccepts
        obtain ⟨⟨_, hmode⟩, haction⟩ := haccepts
        rw [hfrom.startSymbol] at haction
        exact Table.lexMode_ne_error h.grammar h.extras h.table hterminal hstackPath haction hmode.symm
      · exact .inr hextra
    · exact .inl (hroot.applied hproduction)
  · exact .inl (hall t (List.mem_of_mem_head? ht))

/-! ### Moves -/

theorem CompiledFrom.hasToken_of_insertable (h : setting.CompiledFrom g policy)
    (hs : s ∈ Recovery.insertable setting.table) : setting.table.HasToken s := by
  obtain ⟨hfrom, _⟩ := Table.compile_eq_ok h.table
  have hcount := Table.terminalCount_le h.grammar hfrom
  obtain ⟨hterminal, _⟩ := (Recovery.mem_insertable_iff hcount).1 hs
  refine .inr ⟨hterminal, ?_⟩
  rw [Table.isTerminal, hfrom.terminalCount, decide_eq_true_eq] at hterminal
  rw [hfrom.symbols]
  exact Nat.lt_trans hterminal h.grammar.augmented_lt

theorem CompiledFrom.has_of_actsOn (h : setting.CompiledFrom g policy)
    (hv : v.OnPath g setting.table) (hs : setting.ActsOn v s) : setting.table.Has s := by
  cases hs with
  | token lookahead hlookahead hleaf =>
      rcases hv.lookahead lookahead hlookahead with happlied | hidle
      · exact happlied.has
      · rw [hidle.isLeaf] at hleaf
        cases hleaf
  | node lookahead hlookahead hnode =>
      rcases hv.lookahead lookahead hlookahead with happlied | hidle
      · exact happlied.has_firstLeaf
      · exact hidle.has
  | missing s hs => exact (h.hasToken_of_insertable hs).has

/-- A reduction that the table says has its right-hand side on the stack. -/
theorem CompiledFrom.reduces (h : setting.CompiledFrom g policy) (hv : v.OnPath g setting.table)
    (hs : setting.ActsOn v s) {p : ProductionId}
    (haction : .reduce p ∈ setting.table.actionList v.stack.state s) :
    v.stack.Reduces setting.table p :=
  hv.stack.reduces h.grammar h.table h.fit (h.has_of_actsOn hv hs) haction

theorem applied_lookahead (hv : v.OnPath g setting.table) (ht : v.lookahead = some t)
    (hleaf : t.isLeaf = true) : Applied setting.table t := by
  rcases hv.lookahead t ht with happlied | hidle
  · exact happlied
  · rw [hidle.isLeaf] at hleaf
    cases hleaf

/-- What is shifted is no extra and no skipped text. -/
theorem CompiledFrom.step?_of_shift (h : setting.CompiledFrom g policy) {state next : StateId}
    (hs : setting.table.Has s) (haction : .shift next ∈ setting.table.actionList state s) :
    (states g).step? state.toNat s = some next.toNat ∧ (setting.table.symbolInfo s).extra = false ∧
      s ≠ Symbol.error := by
  obtain ⟨hfrom, _⟩ := Table.compile_eq_ok h.table
  obtain ⟨_, hstep⟩ := Table.step?_of_shift h.grammar h.table h.fit hs haction
  obtain ⟨hextra, hlt, _⟩ := Table.extra_of_step? h.grammar hfrom h.apart hstep
  refine ⟨hstep, hextra, Symbol.ne_error_of_index_lt (Nat.lt_of_lt_of_le hlt ?_)⟩
  rw [hfrom.symbols]
  exact h.grammar.size

theorem CompiledFrom.path_shiftReused (h : setting.CompiledFrom g policy)
    (hv : v.OnPath g setting.table) {target next : StateId} (ht : v.lookahead = some t)
    (hnode : t.isLeaf = false)
    (haction : setting.table.actionList v.stack.state t.head.firstLeaf.1 = [.shift target])
    (hnext : setting.table.nextState? v.stack.state t.symbol = some next) :
    (v.stack.push next t true).Path g setting.table := by
  obtain ⟨hfrom, _⟩ := Table.compile_eq_ok h.table
  have hshift : .shift target ∈ setting.table.actionList v.stack.state t.head.firstLeaf.1 := by
    rw [haction]
    exact List.mem_singleton_self _
  rcases hv.lookahead t ht with happlied | hidle
  · have hne : t.symbol ≠ Symbol.error := by
      intro herror
      rw [herror, Table.nextState?_error h.grammar h.table h.fit] at hnext
      cases hnext
    have hstructural : t.isStructural = true := by
      by_contra hother
      exact hne (happlied.error_of_node hnode (Bool.eq_false_iff.2 hother))
    refine .push v.stack _ hv.stack ⟨happlied, fun _ => ?_, fun hother => ?_, fun _ =>
      ⟨hnode, fun _ => hnext⟩⟩
    · exact Table.step?_of_nextState? h.grammar h.table h.fit happlied.has hnext
    · rw [hstructural] at hother
      cases hother
  · obtain ⟨hterminal, _⟩ := Table.step?_of_shift h.grammar h.table h.fit hidle.has hshift
    obtain ⟨_, hextra, _⟩ := h.step?_of_shift hidle.has hshift
    rcases hidle.idle with hnonterminal | hidle
    · rw [Table.isTerminal, hfrom.terminalCount] at hnonterminal
      rw [Grammar.isTerminal, hnonterminal] at hterminal
      cases hterminal
    · rw [hextra] at hidle
      cases hidle

theorem CompiledFrom.onPath_of_moves (h : setting.CompiledFrom g policy)
    (hold : ∀ start ∈ old, ∃ root, start = ReuseCursor.ofRoot root ∧ AppliedRoot setting.table root)
    (hv : v.OnPath g setting.table) (hmove : setting.Moves old v v') :
    v'.OnPath g setting.table := by
  have hnothing : ∀ t ∈ (none : Option Subtree),
      Applied setting.table t ∨ t.IsIdle setting.table :=
    fun t ht => absurd ht (Option.not_mem_none t)
  cases hmove with
  | lex mode tree hlex =>
      refine ⟨hv.stack, ?_⟩
      rintro _ ⟨⟩
      exact .inl (h.applied_of_lexes hlex)
  | reuse start cursor tree hstart hcursor htree hoffset haccepts =>
      obtain ⟨root, rfl, hroot⟩ := hold start hstart
      refine ⟨hv.stack, ?_⟩
      rintro _ ⟨⟩
      exact h.applied_or_idle_of_accepts hroot hcursor htree hv.stack haccepts
  | enter lookahead hlookahead hnode => exact ⟨hv.stack, hnothing⟩
  | reduce s p forked id hs haction =>
      exact ⟨path_reduceStack h.grammar h.table h.fit h.fitTable hv.stack (h.reduces hv hs haction)
        forked id, hv.lookahead⟩
  | shift lookahead next hlookahead hleaf haction =>
      have happlied := applied_lookahead hv hlookahead hleaf
      obtain ⟨hstep, hextra, hne⟩ := h.step?_of_shift happlied.has haction
      refine ⟨hv.stack.push_structural happlied ?_ hstep, hnothing⟩
      by_contra hother
      rcases happlied.of_not_structural (Bool.eq_false_iff.2 hother) with herror | ⟨_, hfound⟩
      · exact hne herror
      · rw [hextra] at hfound
        cases hfound
  | shiftExtra lookahead hlookahead hleaf hextra hnone =>
      exact ⟨hv.stack.push_other (applied_lookahead hv hlookahead hleaf)
        (by simp [Subtree.isStructural, hextra]), hnothing⟩
  | shiftReused lookahead target next hlookahead hnode haction hnext =>
      exact ⟨h.path_shiftReused hv hlookahead hnode haction hnext, hnothing⟩
  | breakPending lookahead hlookahead hleaf hnone =>
      exact ⟨path_breakPending h.grammar h.table h.fit hv.stack, hv.lookahead⟩
  | missing s next id hs haction =>
      have hhas := h.hasToken_of_insertable hs
      obtain ⟨hstep, _, hne⟩ := h.step?_of_shift hhas.has (List.mem_of_mem_head? haction)
      have hstructural : ∀ mode, (Subtree.ofMissing setting.table id s mode).isStructural = true := by
        intro mode
        exact bne_iff_ne.2 hne
      exact ⟨hv.stack.push_structural (applied_ofMissing id _ hhas) (hstructural _) hstep,
        hv.lookahead⟩
  | skip lookahead relexed more popped skipped id mode hlookahead hleaf hmore hrelexed =>
      have htokens : ∀ token ∈ lookahead :: more, Applied setting.table token :=
        List.forall_mem_cons.2 ⟨applied_lookahead hv hlookahead hleaf, h.applied_of_lexesAll hmore⟩
      refine ⟨path_skipVersion hv.stack htokens popped skipped id relexed, ?_⟩
      rintro _ ⟨⟩
      exact .inl (h.applied_of_lexes hrelexed)
  | skipLookahead lookahead id hlookahead hleaf =>
      have happlied := applied_lookahead hv hlookahead hleaf
      exact ⟨hv.stack.push_other (applied_ofSkipped id (by simpa using happlied))
        (by simp [Subtree.isStructural]), hnothing⟩

theorem CompiledFrom.onPath_of_reached (h : setting.CompiledFrom g policy)
    (hold : ∀ start ∈ old, ∃ root, start = ReuseCursor.ofRoot root ∧ AppliedRoot setting.table root)
    (hv : setting.Reached old v) : v.OnPath g setting.table := by
  induction hv with
  | start => exact ⟨.start, nofun⟩
  | move v v' _ hmove ih => exact h.onPath_of_moves hold ih hmove

/-! ### Roots -/

theorem not_structural_of_soleStart? {start : Symbol} {before after : List Subtree}
    (h : soleStart? start trees = some (before, t, after)) :
    ∀ other ∈ before ++ after, other.isStructural = false := by
  rw [soleStart?] at h
  split at h
  · cases h
  · split at h
    · rename_i hsole
      cases h
      intro other hother
      rcases List.mem_append.1 hother with hother | hother
      · simpa using List.mem_takeWhile_imp hother
      · have hnone := (Bool.and_eq_true_iff.1 hsole).2
        simp only [Bool.not_eq_true', List.any_eq_false, Bool.not_eq_true] at hnone
        exact hnone other hother
    · cases h

/-- A root over subtrees of which none counts, apart from those of its production. -/
theorem appliedRoot_stretched {table : Table} {children : List Subtree}
    {production : Option ProductionId} (id : Nat) (size : Length)
    (hstart : table.Has table.startSymbol) (hchildren : ∀ t ∈ children, Applied table t)
    (hproduction : ∀ p ∈ production, p.toNat < table.productions.size ∧
      table.startSymbol = (table.production p).lhs ∧
      structuralSymbols children = (table.production p).rhs.toList)
    (hnone : production = none → ∀ t ∈ children, t.isStructural = false) :
    AppliedRoot table ((interior table id table.startSymbol children production false).stretched
      size) := by
  have hnode := isNodeOf_interior id production false hstart hchildren
  refine ⟨⟨hnode.isLeaf, hnode.extra, hnode.symbol, hnode.firstLeaf, hnode.errors⟩, ?_, ?_, ?_, ?_,
    ?_⟩
  · exact Subtree.symbol_interior ..
  · rw [Subtree.children_stretched, Subtree.children_interior]
    exact hchildren
  · intro p hp
    have hp : p ∈ production := by
      rw [← Subtree.production_interior table id table.startSymbol children production false]
      exact hp
    obtain ⟨hlt, hlhs, hrhs⟩ := hproduction p hp
    refine ⟨hlt, ?_, ?_⟩
    · rw [← hlhs]
      exact Subtree.symbol_interior ..
    · rw [Subtree.children_stretched, Subtree.children_interior]
      exact hrhs
  · intro hp herror
    have hp : production = none := by
      rw [← Subtree.production_interior table id table.startSymbol children production false]
      exact hp
    obtain ⟨_, hok⟩ := hnode.of_hasError_eq_false herror
    rw [Subtree.children_interior] at hok
    cases children with
    | nil => exact .inl rfl
    | cons first rest =>
        have hfirst := hok first List.mem_cons_self
        have happlied := hchildren first List.mem_cons_self
        rcases happlied.of_not_structural (hnone hp first List.mem_cons_self) with
          hsymbol | ⟨hleaf, hextra⟩
        · rw [happlied.hasError hsymbol] at hfirst
          cases hfirst
        · refine .inr ?_
          rw [← hleaf] at hextra
          exact hextra
  · intro hp
    rw [Subtree.children_stretched, Subtree.children_interior]
    refine hnone ?_
    rw [← Subtree.production_interior table id table.startSymbol children production false]
    exact hp

theorem CompiledFrom.start (h : setting.CompiledFrom g policy) :
    setting.table.Has setting.table.startSymbol ∧
      ¬ setting.table.IsAuxiliary setting.table.startSymbol := by
  obtain ⟨hfrom, _⟩ := Table.compile_eq_ok h.table
  have husable := h.grammar.nextSymbol?_usable (nextSymbol?_start h.grammar).1
  refine ⟨?_, Table.not_isAuxiliary_startSymbol h.grammar hfrom⟩
  rw [hfrom.startSymbol, Table.Has, hfrom.symbols]
  exact .inr husable.2.2

theorem CompiledFrom.appliedRoot_buildRoot (h : setting.CompiledFrom g policy) (id : Nat)
    (trailing : Length) (htrees : ∀ t ∈ trees, Applied setting.table t)
    (htail : ∀ t ∈ tail, Applied setting.table t ∧ t.isStructural = false) :
    AppliedRoot setting.table (setting.buildRoot id trees tail trailing).1 := by
  obtain ⟨hstart, hauxiliary⟩ := h.start
  obtain ⟨hbalanced, _⟩ := applied_balanceWhere h.fitTable (fun _ => true) id htrees
  have htailNil : structuralSymbols tail = [] :=
    structuralSymbols_eq_nil fun t ht => (htail t ht).2
  rw [buildRoot]
  simp only
  generalize (balanceWhere setting.table setting.bases (fun _ => true) id trees).1 = trees'
    at hbalanced
  generalize (balanceWhere setting.table setting.bases (fun _ => true) id trees).2 = id'
  cases hsole : soleStart? setting.table.startSymbol trees' with
  | some found =>
      obtain ⟨before, t, after⟩ := found
      obtain ⟨rfl, hstructural, hsymbol⟩ := soleStart?_spec hsole
      have hothers := not_structural_of_soleStart? hsole
      obtain ⟨hbefore, hrest⟩ := List.forall_mem_append.1 hbalanced
      obtain ⟨ht, hafter⟩ := List.forall_mem_cons.1 hrest
      obtain ⟨hbeforeOther, hafterOther⟩ := List.forall_mem_append.1 hothers
      simp only
      refine appliedRoot_stretched id' _ hstart ?_ ?_ ?_
      · simp only [List.forall_mem_append]
        exact ⟨⟨⟨hbefore, ht.child⟩, hafter⟩, fun t ht => (htail t ht).1⟩
      · intro p hp
        cases ht with
        | leaf _ ht =>
            rw [ht.production] at hp
            cases hp
        | node _ _ hmade _ =>
            rw [Subtree.IsMade, show t.head.production = some p from hp] at hmade
            refine ⟨hmade.lt, hsymbol.symm.trans hmade.symbol, ?_⟩
            rw [structuralSymbols_append, structuralSymbols_append, structuralSymbols_append,
              structuralSymbols_eq_nil hbeforeOther, structuralSymbols_eq_nil hafterOther, htailNil,
              List.nil_append, List.append_nil, List.append_nil]
            exact hmade.children
      · intro hnone other hother
        have hleaf : t.children = [] := by
          cases ht with
          | leaf _ ht => exact ht.children
          | node _ _ hmade _ =>
              rw [Subtree.IsMade, show t.head.production = none from hnone] at hmade
              rcases hmade with herror | hjoined
              · simp [Subtree.isStructural, herror] at hstructural
              · rw [← hsymbol] at hauxiliary
                exact absurd hjoined.1.symbol hauxiliary
        rw [hleaf, List.append_nil] at hother
        rcases List.mem_append.1 hother with hother | hother
        · exact hothers other hother
        · exact (htail other hother).2
  | none =>
      simp only
      split
      · refine appliedRoot_stretched (id' + 1) _ hstart ?_
          (fun _ h => absurd h (Option.not_mem_none _)) ?_
        · simp only [List.forall_mem_append, List.forall_mem_singleton]
          exact ⟨applied_ofSkipped id' hbalanced, fun t ht => (htail t ht).1⟩
        · intro _ other hother
          rcases List.mem_append.1 hother with hother | hother
          · rw [List.mem_singleton.1 hother]
            simp [Subtree.isStructural]
          · exact (htail other hother).2
      · rename_i hnone
        refine appliedRoot_stretched id' _ hstart ?_
          (fun _ h => absurd h (Option.not_mem_none _)) ?_
        · simp only [List.forall_mem_append]
          exact ⟨hbalanced, fun t ht => (htail t ht).1⟩
        · intro _ other hother
          rcases List.mem_append.1 hother with hother | hother
          · simp only [List.any_eq_true, not_exists, not_and, Bool.not_eq_true] at hnone
            exact hnone other hother
          · exact (htail other hother).2

theorem CompiledFrom.appliedRoot_of_ends (h : setting.CompiledFrom g policy)
    (hold : ∀ start ∈ old, ∃ root, start = ReuseCursor.ofRoot root ∧ AppliedRoot setting.table root)
    {tree : Tree} (hends : setting.Ends old tree) :
    tree.language = setting.language ∧ AppliedRoot setting.table tree.root := by
  have hstack : ∀ v, setting.Reached old v → ∀ t ∈ v.stack.trees, Applied setting.table t := by
    intro v hv t ht
    obtain ⟨frame, hframe, rfl⟩ := List.mem_map.1 (List.mem_reverse.1 ht)
    exact (h.onPath_of_reached hold hv).stack.applied frame hframe
  cases hends with
  | accepted v a id hreached haccepted =>
      refine ⟨rfl, h.appliedRoot_buildRoot id a.trailing ?_ nofun⟩
      rw [haccepted.trees]
      exact hstack v hreached
  | stopped v id status hreached =>
      refine ⟨rfl, h.appliedRoot_buildRoot (id + 1) Length.zero (hstack v hreached) ?_⟩
      intro t ht
      rw [remainder] at ht
      split at ht
      · rw [List.mem_singleton.1 ht]
        refine ⟨applied_ofToken id _ (.inl rfl), ?_⟩
        simp [Subtree.isStructural, Subtree.ofToken, Subtree.symbol, Subtree.head]
      · cases ht
  | nothing id hmax =>
      refine ⟨rfl, ?_⟩
      exact h.appliedRoot_buildRoot id (Length.ofBytes setting.text)
        (fun _ ht => absurd ht List.not_mem_nil) (fun _ ht => absurd ht List.not_mem_nil)

end ParseSetting

theorem AppliedRoot.followsProductions {tree : Tree}
    (h : AppliedRoot tree.language.table tree.root) : tree.FollowsProductions := by
  refine ⟨?_, ?_⟩
  · intro q hq p hp
    rw [nodesAt_eq] at hq
    rcases List.mem_cons.1 hq with rfl | hq
    · exact h.production p hp
    · cases applied_of_mem_nodesAmong h.children hq with
      | leaf _ hleaf =>
          rw [hleaf.production] at hp
          cases hp
      | node _ _ hmade _ =>
          rw [Subtree.IsMade, show q.subtree.head.production = some p from hp] at hmade
          exact hmade
  · intro q hq hnode hnone
    cases applied_of_mem_nodesAmong h.children hq with
    | leaf _ hleaf =>
        rw [hleaf.isLeaf] at hnode
        cases hnode
    | node _ _ hmade _ =>
        rw [Subtree.IsMade, hnone] at hmade
        exact hmade.imp_right And.left

/-! ### Parsers -/

variable {d : GrammarDef} {policy : ConflictPolicy} {l : Language} {scanner : Option ExternalScanner}
  {number : Nat} {p : Parser} {old : Option Tree}

theorem Parser.setting_compiledFrom_of_load (hl : Language.load d policy = .ok l)
    (hfit : l.table.EntriesFit) (hapart : l.table.ExtrasApart)
    (hp : p.language = { l with scanner := scanner, id := number })
    (hbases : p.bases = RepetitionBases.ofTable l.table) {g : Grammar}
    (hg : Grammar.load d = .ok g) (text : ByteArray) : (p.setting text).CompiledFrom g policy := by
  obtain ⟨g', hg', hcompiled⟩ := Language.exists_compiledFrom_of_load hl
  rw [hg, Except.ok.injEq] at hg'
  subst hg'
  obtain ⟨hfrom, _⟩ := Table.compile_eq_ok hcompiled.table
  obtain ⟨hlexer, hcount, _⟩ := Language.table_of_load hcompiled
  have hlanguage : (p.setting text).language = { l with scanner := scanner, id := number } := hp
  have htable := Parser.table_setting hp text
  refine ⟨hcompiled.grammar, ?_, ?_, ?_, ?_, ?_, ?_⟩
  · intro heof
    exact absurd ((Grammar.load_references hg).extras _ heof).1 (Nat.lt_irrefl 0)
  · rw [htable]
    exact hcompiled.table
  · rw [htable]
    exact hfit
  · rw [htable]
    exact hapart
  · rw [htable]
    exact hbases
  · intro position mode
    have hsize := hcompiled.grammar.augmented_lt
    have hterminal : ∀ s : Symbol, s.index < g.terminalCount →
        l.table.isTerminal s = true ∧ s.index < l.table.symbols.size := by
      intro s hs
      rw [Table.isTerminal, hfrom.terminalCount, hfrom.symbols]
      exact ⟨decide_eq_true hs, Nat.lt_trans hs hsize⟩
    rw [htable, hlanguage, Language.lex]
    rcases hlexer.gives.symbol_lex scanner position mode with heof | herror | htoken
    · rw [heof]
      exact .inr (hterminal Symbol.eof hcompiled.grammar.terminals)
    · exact .inl herror
    · rw [hcount, hfrom.terminalCount] at htoken
      exact .inr (hterminal _ htoken.2)

theorem Parser.setting_compiledFrom (hl : Language.load d policy = .ok l) (hfit : l.table.EntriesFit)
    (hapart : l.table.ExtrasApart) (hp : p.language = { l with scanner := scanner, id := number })
    (hbases : p.bases = RepetitionBases.ofTable l.table) (text : ByteArray) :
    ∃ g, (p.setting text).CompiledFrom g policy := by
  obtain ⟨g, hg, _⟩ := Language.exists_compiledFrom_of_load hl
  exact ⟨g, Parser.setting_compiledFrom_of_load hl hfit hapart hp hbases hg text⟩

theorem Parser.appliedRoot_cursor? {table : Table}
    (hold : ∀ tree ∈ old, tree.language.isSame p.language = true → AppliedRoot table tree.root) :
    ∀ start ∈ p.cursor? old, ∃ root, start = ReuseCursor.ofRoot root ∧ AppliedRoot table root :=
  Parser.forall_cursor? fun tree htree hsame => ⟨tree.root, rfl, hold tree htree hsame⟩

theorem Tree.Made.appliedRoot (hl : Language.load d policy = .ok l) (hfit : l.table.EntriesFit)
    (hapart : l.table.ExtrasApart) {tree : Tree}
    (h : tree.Made { l with scanner := scanner, id := number }) : AppliedRoot l.table tree.root := by
  induction h with
  | parse p text old id hp hbases _ ih =>
      obtain ⟨g, hsetting⟩ := Parser.setting_compiledFrom hl hfit hapart hp hbases text
      have htable := Parser.table_setting hp text
      rw [← hp] at ih
      have hcursor := Parser.appliedRoot_cursor? ih
      rw [← htable] at hcursor ⊢
      exact (hsetting.appliedRoot_of_ends hcursor (p.ends_parse text old id)).2
  | edit tree change id _ ih => exact ih.edit change id

theorem Parser.appliedRoot_cursor?_of_made (hl : Language.load d policy = .ok l)
    (hfit : l.table.EntriesFit) (hapart : l.table.ExtrasApart)
    (hp : p.language = { l with scanner := scanner, id := number })
    (hold : ∀ tree ∈ old, tree.language.isSame p.language = true → tree.Made p.language) :
    ∀ start ∈ p.cursor? old, ∃ root, start = ReuseCursor.ofRoot root ∧ AppliedRoot l.table root := by
  refine Parser.appliedRoot_cursor? fun tree htree hsame => ?_
  have hmade := hold tree htree hsame
  rw [hp] at hmade
  exact hmade.appliedRoot hl hfit hapart

/-- Every node of the tree of a parse is a correct application of its production, and no reduction of
the parse lacks a part of its right-hand side or a state to go to. -/
theorem Parser.followsProductions_parse (hl : Language.load d policy = .ok l)
    (hfit : l.table.EntriesFit) (hapart : l.table.ExtrasApart)
    (hp : p.language = { l with scanner := scanner, id := number })
    (hbases : p.bases = RepetitionBases.ofTable l.table)
    (hold : ∀ tree ∈ old, tree.language.isSame p.language = true → tree.Made p.language)
    (text : ByteArray) (id : Nat) :
    (p.parse text old id).tree.FollowsProductions ∧
      ∀ (v : Version) (s : Symbol) (i : ProductionId), (p.setting text).Reached (p.cursor? old) v →
        (p.setting text).ActsOn v s → .reduce i ∈ l.table.actionList v.stack.state s →
        v.stack.Reduces l.table i := by
  obtain ⟨g, hsetting⟩ := Parser.setting_compiledFrom hl hfit hapart hp hbases text
  have htable : (p.setting text).table = l.table := by
    rw [ParseSetting.table, show (p.setting text).language = _ from hp]
  have hcursor := Parser.appliedRoot_cursor? fun tree htree hsame =>
    Tree.Made.appliedRoot hl hfit hapart (hp ▸ hold tree htree hsame)
  rw [← htable] at hcursor ⊢
  obtain ⟨hlanguage, hroot⟩ := hsetting.appliedRoot_of_ends hcursor (p.ends_parse text old id)
  constructor
  · rw [ParseSetting.table, ← hlanguage] at hroot
    exact hroot.followsProductions
  · intro v s i hreached hs haction
    exact hsetting.reduces (hsetting.onPath_of_reached hcursor hreached) hs haction

theorem apart_optionalToken {t : Table} (h : Table.compile .optionalToken .strict = .ok t) :
    t.EntriesFit ∧ t.ExtrasApart := by
  obtain ⟨hfrom, _⟩ := Table.compile_eq_ok h
  have hlengths := lengthsFit_optionalToken h
  refine ⟨⟨⟨Nat.le_of_lt hlengths.states, Nat.le_of_lt hlengths.productions.1⟩,
    Nat.le_of_lt hlengths.ambigs.1⟩, ?_⟩
  intro p hp s hs
  rw [Table.symbolInfo, hfrom.symbols]
  rw [hfrom.productions] at hp
  have hall : ∀ p ∈ Grammar.optionalToken.productions.map Compile.productionInfo, ∀ s ∈ p.rhs,
      (if s = Symbol.error then SymbolInfo.error
        else Grammar.optionalToken.symbols.getD s.index SymbolInfo.error).extra = false := by
    decide +kernel
  exact hall p hp s hs

/-- A token is replaced in a text, and the parse takes over what it can from the edited tree. -/
theorem followsProductions_parse_optionalToken :
    ∃ l, Language.load .optionalToken .strict = .ok l ∧
      let p := Parser.ofLanguage { l with scanner := none, id := 1 }
      let away := InputEdit.replace "x".toUTF8 0 1 "y".toUTF8
      let edited := ((p.parse "x".toUTF8 none 0).tree.edit away 8).1
      (p.parse (away.applyTo "x".toUTF8 "y".toUTF8) (some edited) 16).tree.FollowsProductions := by
  obtain ⟨t, ht, _⟩ := exists_compile_optionalToken
  obtain ⟨l, hl, rfl⟩ := Language.exists_load load_optionalToken ht (by decide +kernel)
  obtain ⟨hfit, hapart⟩ := apart_optionalToken ht
  refine ⟨l, hl, (Parser.followsProductions_parse hl hfit hapart rfl rfl ?_ _ 16).1⟩
  intro tree htree _
  cases htree
  exact .edit _ _ 8 (.parse _ _ none 0 rfl rfl nofun)

end IncrementalLR
