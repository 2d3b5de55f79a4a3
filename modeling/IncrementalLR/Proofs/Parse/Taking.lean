import IncrementalLR.Proofs.Parse.Precedence
import IncrementalLR.Proofs.Parse.Relexing

/-!
# Tokens that are taken over

A cursor in an old tree stands at the place of something under its root, so what it gives at a place
stands there in the text. If that is a token, and it is not marked, it is the one that the lexer gives
there. This holds for the trees of parses and of edits: a parse lexes the tokens of its tree, or
takes them over itself, and edits mark what they do not leave as it was.
-/

namespace IncrementalLR

open Subtree (leavesAll nodesAt nodesAmong totalAll)

/-- A token that a cursor gives for a state is the one that the lexer gives for it. -/
def ReuseCursor.TakesTokens (cursor : ReuseCursor) (l : Language) (text : ByteArray) : Prop :=
  ∀ (position : Nat) (state : StateId) (leaf : Subtree),
    (cursor.take l.table position state).1 = some leaf → leaf.isLeaf = true →
    l.table.lexMode state ≠ LexMode.error →
    l.lex text position (l.table.lexMode state) = leaf.token

/-- A cursor stands at a place of a tree, and so does all that is left of the tree behind it. -/
def ReuseCursor.StandsAmong (c : ReuseCursor) (nodes : List Placed) : Prop :=
  ∃ place : Length, place.bytes = c.offset ∧ nodesAmong place c.rest ⊆ nodes

variable {l : Language} {table : Table} {text : ByteArray} {tree : Tree} {t : Subtree}
  {trees : List Subtree} {w : List UInt8} {c : ReuseCursor} {nodes : List Placed}

/-! ### Cursors -/

namespace ReuseCursor

theorem standsAmong_of_nil (h : c.rest = []) : c.StandsAmong nodes := by
  refine ⟨⟨c.offset, Point.zero⟩, rfl, ?_⟩
  rw [h]
  exact List.nil_subset _

theorem StandsAmong.advance (h : c.StandsAmong nodes) : c.advance.StandsAmong nodes := by
  cases hcursor : c.rest with
  | nil =>
      rw [advance_of_rest_eq_nil hcursor]
      exact h
  | cons t rest =>
      have hrest : c.advance.rest = rest := by rw [rest_advance, hcursor, List.tail_cons]
      rcases offset_advance hcursor with hnil | hoffset
      · exact standsAmong_of_nil (hrest.trans hnil)
      · obtain ⟨place, hplace, hall⟩ := h
        rw [hcursor] at hall
        refine ⟨place + t.total, ?_, ?_⟩
        · rw [Length.bytes_add, hplace, hoffset]
        · rw [hrest]
          exact List.Subset.trans (List.subset_append_right _ _) hall

/-- A node is as long as its children, so what is behind it is still behind them. -/
theorem StandsAmong.stepInto (h : c.StandsAmong nodes)
    (htotals : ∀ p ∈ nodes, p.subtree.children ≠ [] →
      p.subtree.total = totalAll p.subtree.children) : c.stepInto.StandsAmong nodes := by
  rcases c.stepInto_cases with ⟨_, heq⟩ | ⟨t, rest, _, _, heq⟩ | ⟨t, rest, hcursor, hne, hrest, hoffset⟩
  · rwa [heq]
  · rw [heq]
    exact h.advance
  · obtain ⟨place, hplace, hall⟩ := h
    rw [hcursor, nodesAmong, nodesAt_eq, List.cons_append] at hall
    obtain ⟨ht, hall⟩ := List.cons_subset.1 hall
    refine ⟨place, hplace.trans hoffset.symm, ?_⟩
    rw [hrest, nodesAmong_append, ← htotals _ ht hne]
    exact hall

/-- A cursor stands in front of the root, or at a place of what is under the root. -/
theorem standsAmong_of_reaches {root : Subtree}
    (htotals : ∀ p ∈ nodesAmong Length.zero root.children, p.subtree.children ≠ [] →
      p.subtree.total = totalAll p.subtree.children)
    (h : (ofRoot root).Reaches c) :
    c = ofRoot root ∨ c.StandsAmong (nodesAmong Length.zero root.children) := by
  induction h with
  | refl => exact .inl rfl
  | advance d _ ih =>
      rcases ih with rfl | hplaced
      · exact .inr (standsAmong_of_nil rfl)
      · exact .inr hplaced.advance
  | stepInto d _ ih =>
      rcases ih with rfl | hplaced
      · refine .inr ?_
        rcases (ofRoot root).stepInto_cases with
          ⟨hnil, _⟩ | ⟨t, rest, _, _, heq⟩ | ⟨t, rest, hcursor, _, hrest, hoffset⟩
        · cases hnil
        · rw [heq]
          exact standsAmong_of_nil rfl
        · cases hcursor
          refine ⟨Length.zero, hoffset.symm, ?_⟩
          rw [hrest, behind, List.append_nil]
          exact List.Subset.refl _
      · exact .inr (hplaced.stepInto htotals)

end ReuseCursor

/-! ### What is taken -/

/-- What is taken over from a current tree is its root, or stands under the root and covers its part
of the text. -/
theorem Tree.IsCurrent.stands (h : tree.IsCurrent table text.data.toList)
    (hreaches : (ReuseCursor.ofRoot tree.root).Reaches c) (hhead : c.rest.head? = some t)
    {state : StateId} (haccepts : ReuseCursor.accepts table state t = true) :
    (c.offset = 0 ∧ ∃ covered after, IsRootOver table covered after t ∧ t = tree.root) ∨
      ∃ front part, c.offset = front.length ∧ Covers table t part ∧
        nodesAt (Length.ofList front) t ⊆ nodesAmong Length.zero tree.root.children := by
  obtain ⟨covered, after, _, hchildren⟩ := h.children
  obtain ⟨hflag, _, _⟩ := ParseSetting.intact_of_accepts haccepts
  have htotals : ∀ p ∈ nodesAmong Length.zero tree.root.children, p.subtree.children ≠ [] →
      p.subtree.total = totalAll p.subtree.children := by
    intro p hp hne
    obtain ⟨_, part, _, hp, _⟩ := hchildren.of_mem_nodesAmong [] hp
    rw [hp.total_eq, (hp.currentAll_children hne).totalAll_eq]
  rcases ReuseCursor.standsAmong_of_reaches htotals hreaches with rfl | ⟨place, hplace, hrest⟩
  · cases hhead
    refine .inl ⟨rfl, ?_⟩
    rcases h.root with hchanged | ⟨covered, after, _, hroot⟩
    · rw [hflag] at hchanged
      cases hchanged
    · exact ⟨covered, after, hroot, rfl⟩
  · obtain ⟨rest, hcursor⟩ := List.head?_eq_some_iff.1 hhead
    rw [hcursor, nodesAmong] at hrest
    obtain ⟨ht, _⟩ := List.append_subset.1 hrest
    have hmem : (⟨t, place⟩ : Placed) ∈ nodesAmong Length.zero tree.root.children := by
      refine ht ?_
      rw [nodesAt_eq]
      exact List.mem_cons_self
    obtain ⟨front, part, hfront, hcurrent, _⟩ := hchildren.of_mem_nodesAmong [] hmem
    obtain rfl : place = Length.ofList front := hfront
    rw [Length.bytes_ofList] at hplace
    exact .inr ⟨front, part, hplace.symm, hcurrent.covers hflag, ht⟩

theorem CoversAll.relexesAll_leavesAll (h : CoversAll table trees w) (front : List UInt8)
    (hall : ∀ p ∈ leavesOf (nodesAmong (Length.ofList front) trees),
      p.subtree.flags.hasChanges = false → l.Relexes text p.offset.bytes p.subtree) :
    l.RelexesAll text front.length (leavesAll trees) := by
  rw [← h.map_leavesOf (Length.ofList front), ← Length.bytes_ofList front]
  refine (Language.relexesAll_iff_of_adjacent (h.adjacent front)).2 fun p hp => hall p hp ?_
  obtain ⟨_, _, _, hp, _⟩ := h.of_mem_nodesAmong front (List.mem_filter.1 hp).1
  exact hp.hasChanges_eq_false

theorem IsRootOver.leaves_eq {root : Subtree} {covered after : List UInt8}
    (h : IsRootOver table covered after root) : root.leaves = leavesAll root.children := by
  cases h with
  | mk id children production hchildren => exact Subtree.leaves_of_node (by simp)

/-- The leaves of what is taken over are lexed again to what they are. -/
theorem Tree.IsRelexed.relexes (h : tree.IsRelexed l text)
    (hcurrent : tree.IsCurrent l.table text.data.toList) :
    (ReuseCursor.ofRoot tree.root).Relexes l text := by
  intro cursor t state hreaches hhead haccepts
  rcases hcurrent.stands hreaches hhead haccepts with
    ⟨hoffset, covered, after, hroot, rfl⟩ | ⟨front, part, hoffset, hcovers, hnodes⟩
  · rw [hoffset, hroot.leaves_eq]
    exact hroot.coversAll_children.relexesAll_leavesAll [] h.leaves
  · rw [hoffset, ← Subtree.leavesAll_singleton]
    refine (coversAll_singleton hcovers).relexesAll_leavesAll front ?_
    intro p hp hflag
    obtain ⟨hp, hleaf⟩ := List.mem_filter.1 hp
    rw [nodesAmong, nodesAmong, List.append_nil] at hp
    exact h.leaves p (List.mem_filter.2 ⟨hnodes hp, hleaf⟩) hflag

theorem ReuseCursor.mode_of_accepts {state : StateId} (h : accepts table state t = true) :
    t.head.firstLeaf.2 = table.lexMode state := by
  rw [accepts] at h
  simp only [Bool.and_eq_true, beq_iff_eq] at h
  exact h.1.2

/-- A leaf is its own first leaf. -/
theorem Covers.mode_firstLeaf (h : Covers table t w) (hleaf : t.isLeaf = true) :
    t.head.firstLeaf.2 = t.head.lexMode := by
  cases h with
  | token => rfl
  | missing => rfl
  | interior => simp at hleaf
  | root => simp at hleaf

/-- A token that is taken was lexed in the mode of the state for which it is taken. -/
theorem Tree.IsRelexed.takesTokens (h : tree.IsRelexed l text)
    (hcurrent : tree.IsCurrent l.table text.data.toList)
    (hreaches : (ReuseCursor.ofRoot tree.root).Reaches c) : c.TakesTokens l text := by
  intro position state leaf htake hleaf hmode
  obtain ⟨hmoved, htaken⟩ := c.take_spec l.table position state
  obtain ⟨hhead, hoffset, haccepts⟩ := htaken leaf htake
  have hthere := hreaches.trans hmoved
  have hrelexes := h.relexes hcurrent _ leaf state hthere hhead haccepts
  obtain ⟨w, hcovers⟩ : ∃ w, Covers l.table leaf w := by
    rcases hcurrent.stands hthere hhead haccepts with ⟨_, _, _, hroot, _⟩ | ⟨_, w, _, hcovers, _⟩
    · cases hroot
      simp at hleaf
    · exact ⟨w, hcovers⟩
  obtain ⟨_, _, hsize⟩ := ParseSetting.intact_of_accepts haccepts
  have hlexed : leaf.head.lexMode = l.table.lexMode state := by
    rw [← hcovers.mode_firstLeaf hleaf, ReuseCursor.mode_of_accepts haccepts]
  rw [hoffset, Subtree.leaves_of_leaf hleaf (hcovers.children_eq_nil hleaf),
    Language.relexesAll_singleton_iff] at hrelexes
  rw [← hlexed] at hmode ⊢
  exact hrelexes hsize hmode

/-! ### Parses -/

variable {d : GrammarDef} {policy : ConflictPolicy} {scanner : Option ExternalScanner}
  {number : Nat} {p : Parser}

theorem Parser.eq_of_cursor? (p : Parser) {old : Tree} {start : ReuseCursor}
    (h : start ∈ p.cursor? (some old)) : start = ReuseCursor.ofRoot old.root := by
  have hall : ∀ c ∈ p.cursor? (some old), c = ReuseCursor.ofRoot old.root := by
    refine Parser.forall_cursor? fun tree htree _ => ?_
    cases htree
    rfl
  exact hall start h

/-- Trees that parses and edits lead to have the leaves that the lexer gives. -/
theorem Tree.Obtained.isRelexed (hl : Language.load d policy = .ok l) (hnode : l.table.StartIsNode)
    (hforward : ∀ x ∈ scanner, x.ReadsForward) (hlocal : ∀ x ∈ scanner, x.IsLocal)
    (h : Tree.Obtained { l with scanner := scanner, id := number } text tree) :
    tree.IsRelexed { l with scanner := scanner, id := number } text := by
  have hparse : ∀ (p : Parser) (text : ByteArray) (old : Option Tree) (id : Nat),
      p.language = { l with scanner := scanner, id := number } →
      (∀ start ∈ p.cursor? old, start.Agrees l.table text.data.toList ∧
        start.Relexes { l with scanner := scanner, id := number } text) →
      (p.parse text old id).tree.IsRelexed { l with scanner := scanner, id := number } text := by
    intro p text old id hp hold
    have htable := Parser.table_setting hp text
    have hrelexed := ParseSetting.isRelexed_of_ends (Parser.setting_wellFormed hl hforward hp text)
      (by rw [htable]; exact hnode) (by rw [htable]; exact fun start hstart => (hold start hstart).1)
      (by
        rw [show (p.setting text).language = _ from hp]
        exact fun start hstart => (hold start hstart).2) (p.ends_parse text old id)
    rwa [show (p.setting text).language = _ from hp] at hrelexed
  induction h with
  | parse p text id hp =>
      refine hparse p text none id hp ?_
      intro start hnone
      cases hnone
  | reparse p text old id hp hobtained hwhole ih =>
      have hcurrent := hobtained.isCurrent hl hnode hforward
      refine hparse p text (some old) id hp fun start hstart => ⟨?_, ?_⟩
      · exact Parser.agrees_cursor? hcurrent hwhole start hstart
      · obtain rfl := p.eq_of_cursor? hstart
        exact ih.relexes hcurrent
  | edit text new old start stop id _ hle hstop ih =>
      exact ih.edit hforward hlocal new hle hstop id

/-- In front of every operation of a parse, the tokens that can be taken over from the old tree are
those that the lexer gives. -/
theorem Parser.takesTokens_of_passes (hl : Language.load d policy = .ok l)
    (hnode : l.table.StartIsNode) (hforward : ∀ x ∈ scanner, x.ReadsForward)
    (hlocal : ∀ x ∈ scanner, x.IsLocal)
    (hp : p.language = { l with scanner := scanner, id := number }) {old : Tree}
    (hold : Tree.Obtained p.language text old) (id : Nat) {s : ParseState}
    (hs : (p.setting text).Passes
      (.start p.language.table.startState (p.cursor? (some old)) id) s) :
    ∀ cursor ∈ s.reuse, cursor.TakesTokens p.language text := by
  intro cursor hcursor
  have hsound : s.Sound ((p.setting text).reaching (p.cursor? (some old))) :=
    ParseSetting.sound_of_passes (ParseSetting.sound_start _ id) hs
  obtain ⟨start, hstart, hreaches⟩ := hsound.reuse cursor hcursor
  obtain rfl := p.eq_of_cursor? hstart
  rw [hp] at hold ⊢
  exact (hold.isRelexed hl hnode hforward hlocal).takesTokens
    (hold.isCurrent hl hnode hforward) hreaches

def Language.heavy : Language where
  table := .heavy
  lexer :=
    { automaton := Pattern.Automaton.ofExprs
        [.byte (Pattern.ByteSet.singleton 117), .byte (Pattern.ByteSet.singleton 116)]
      patterns := #[.token ⟨1⟩ true, .token ⟨2⟩ true]
      terminalCount := 3
      valid := #[SymbolSet.ofList [⟨0⟩, ⟨1⟩, ⟨2⟩], SymbolSet.ofList [⟨2⟩], SymbolSet.ofList [⟨1⟩, ⟨2⟩],
        SymbolSet.ofList [⟨0⟩], SymbolSet.ofList [⟨1⟩]]
      word := none
      keywords := {}
      externals := #[] }

theorem Language.loads_heavy : Language.load .heavy .strict = .ok .heavy := by
  have hlexer : Lexer.ofTable .heavy = .ok Language.heavy.lexer := by
    have hsources : Table.heavy.lexical.tokens.toList.map (·.pattern) ++
        Table.heavy.lexical.skips.toList = ["u", "t"] := rfl
    have hread : ["u", "t"].mapM Pattern.read?
        = some [.byte (Pattern.ByteSet.singleton 117), .byte (Pattern.ByteSet.singleton 116)] := by
      decide +kernel
    rw [Lexer.ofTable]
    simp only [hsources, hread]
    simp [Language.heavy, Table.heavy, Lexer.wordPattern]
  rw [load, load_heavy]
  change ofGrammar .heavy .strict = _
  rw [ofGrammar, compile_heavy]
  change ofTable .heavy [] = _
  rw [ofTable, hlexer]
  rfl

/-- The first of three tokens is replaced. The last one is taken over behind the two others. -/
theorem takesTokens_heavy : Language.load .heavy .strict = .ok .heavy ∧
    let p := Parser.ofLanguage .heavy
    let edit := InputEdit.replace "ttu".toUTF8 0 1 "t".toUTF8
    let first := p.parse "ttu".toUTF8 none 0
    let old := (first.tree.edit edit first.nextId).1
    ∃ cursor ∈ p.cursor? (some old),
      (cursor.take p.language.table 2 1).1.map (fun leaf => (leaf.symbol, leaf.isLeaf))
        = some (⟨1⟩, true) ∧
      cursor.TakesTokens p.language (edit.applyTo "ttu".toUTF8 "t".toUTF8) := by
  refine ⟨Language.loads_heavy, ?_⟩
  intro p edit first old
  have hnode : Table.heavy.StartIsNode := by
    intro hterminal
    cases hterminal
  have hforward : ∀ x ∈ (none : Option ExternalScanner), x.ReadsForward := by
    intro x hx
    cases hx
  have hlocal : ∀ x ∈ (none : Option ExternalScanner), x.IsLocal := by
    intro x hx
    cases hx
  have hfresh : Tree.Obtained p.language "ttu".toUTF8 first.tree := .parse _ _ _ rfl
  have hedited := hfresh.edit "ttu".toUTF8 "t".toUTF8 _ 0 1 first.nextId (by decide) (by decide)
  have hcursor : ReuseCursor.ofRoot old.root ∈ p.cursor? (some old) := by
    have hsame : old.language.isSame p.language = true := by decide +kernel
    rw [Parser.cursor?, Option.filter_some, if_pos hsame]
    rfl
  exact ⟨_, hcursor, by decide +kernel, Parser.takesTokens_of_passes Language.loads_heavy hnode hforward
    hlocal rfl hedited 16 .start _ hcursor⟩

end IncrementalLR
