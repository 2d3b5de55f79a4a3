import IncrementalLR.Parse.Parser
import IncrementalLR.Proofs.Language
import IncrementalLR.Proofs.Lexer.Lookahead
import IncrementalLR.Proofs.Parse.Root
import IncrementalLR.Proofs.Parse.Run
import IncrementalLR.Proofs.Parse.Stack
import IncrementalLR.Proofs.Table.Acceptance
import IncrementalLR.Proofs.Tree.Spans

/-!
# Parses span their text

The stack of a version covers the text in front of the position of the version, and the lookahead
comes next. Moves keep it so. The tree at the end of a parse has all of it under its root, and so it
spans the text.
-/

namespace IncrementalLR

/-- What a parse relies on: tokens are terminals, and a text is accepted at its end only. -/
structure ParseSetting.WellFormed (setting : ParseSetting) : Prop where
  lexer : setting.language.lexer.WellFormed
  terminalCount : setting.language.lexer.terminalCount = setting.table.terminalCount
  eof : setting.table.isTerminal Symbol.eof = true
  scanner : ∀ x ∈ setting.language.scanner, x.ReadsForward
  accept : ∀ (state : StateId) (s : Symbol), setting.table.isTerminal s = true →
    .accept ∈ setting.table.actionList state s → s = Symbol.eof

/-- What can be taken over from an old tree covers the text at its place. -/
def ReuseCursor.Agrees (start : ReuseCursor) (table : Table) (text : List UInt8) : Prop :=
  ∀ (cursor : ReuseCursor) (tree : Subtree) (state : StateId), start.Reaches cursor →
    cursor.rest.head? = some tree → accepts table state tree = true →
    ∀ done rest, text = done ++ rest → cursor.offset = done.length →
      ∃ u after, rest = u ++ after ∧ Covers table tree u

/-- The text in front of a version is on its stack, and its lookahead is next in the text. -/
structure Version.Follows (setting : ParseSetting) (v : Version) (done rest : List UInt8) :
    Prop where
  text : setting.text.data.toList = done ++ rest
  position : v.position = Length.ofList done
  stack : v.stack.Tiles setting.table done
  lookahead : ∀ t ∈ v.lookahead, ∃ u after, rest = u ++ after ∧ Covers setting.table t u
  token : ∀ t ∈ v.lookahead, t.isLeaf = true →
    t.symbol = Symbol.error ∨ setting.table.isTerminal t.symbol = true
  /-- the end of input was found by the lexer -/
  eof : ∀ t ∈ v.lookahead, t.isLeaf = true → t.symbol = Symbol.eof →
    ∃ mode, setting.Lexes v.position.bytes mode t

namespace ParseSetting

variable {setting : ParseSetting} {old : Option ReuseCursor} {v v' : Version} {t : Subtree}
  {done rest : List UInt8}

open Subtree (foldl_add_total)

/-! ### Tokens -/

theorem exists_slices {start stop : Nat} (hstart : done.length ≤ start) (hstop : start ≤ stop)
    (hend : stop ≤ (done ++ rest).length) :
    ∃ p w after, rest = p ++ w ++ after ∧ start = (done ++ p).length ∧
      stop = (done ++ p ++ w).length := by
  rw [List.length_append] at hend
  refine ⟨rest.take (start - done.length), (rest.drop (start - done.length)).take (stop - start),
    (rest.drop (start - done.length)).drop (stop - start), ?_, ?_, ?_⟩
  · rw [List.append_assoc, List.take_append_drop, List.take_append_drop]
  · rw [List.length_append, List.length_take]
    omega
  · rw [List.length_append, List.length_append, List.length_take, List.length_take,
      List.length_drop]
    omega

theorem lengthBetween_eq {text : ByteArray} {a b c : List UInt8}
    (h : text.data.toList = a ++ b ++ c) :
    Lexer.lengthBetween text a.length (a ++ b).length = Length.ofList b := by
  rw [Lexer.lengthBetween, Length.ofBytes_extract, h, List.take_left, List.drop_left]

theorem covers_of_lexes (hsetting : setting.WellFormed)
    (htext : setting.text.data.toList = done ++ rest) {mode : LexMode}
    (h : setting.Lexes (Length.ofList done).bytes mode t) :
    (∃ u after, rest = u ++ after ∧ Covers setting.table t u) ∧ t.isLeaf = true ∧
      (t.symbol = Symbol.error ∨ setting.table.isTerminal t.symbol = true) ∧
      (t.symbol = Symbol.eof → t.padding = Length.ofList rest) := by
  obtain ⟨id, rfl⟩ := h
  rw [Length.bytes_ofList]
  have hsize : setting.text.size = (done ++ rest).length := by
    rw [← htext]
    rfl
  have hle : done.length ≤ setting.text.size := by
    rw [hsize, List.length_append]
    omega
  obtain ⟨start, stop, htoken⟩ :=
    Lexer.tokenAt_lex hsetting.lexer hsetting.scanner hle mode
  rw [Language.lex]
  generalize setting.language.lexer.lex setting.text done.length mode setting.language.scanner
    = token at htoken
  obtain ⟨p, w, after, rfl, rfl, rfl⟩ := exists_slices htoken.position_le htoken.start_le
    (hsize ▸ htoken.stop_le)
  have hpadding : token.padding = Length.ofList p := by
    rw [htoken.padding]
    exact lengthBetween_eq (c := w ++ after) (by rw [htext]; simp)
  have hwidth : token.size = Length.ofList w := by
    rw [htoken.size]
    exact lengthBetween_eq (c := after) (by rw [htext]; simp)
  have hkind : token.symbol = Symbol.error ∨ setting.table.isTerminal token.symbol = true := by
    rcases htoken.symbol with ⟨heof, _⟩ | ⟨herror | hterminal, _⟩
    · rw [heof]
      exact .inr hsetting.eof
    · exact .inl herror
    · rw [hsetting.terminalCount] at hterminal
      exact .inr (decide_eq_true hterminal.2)
  have heof : token.symbol = Symbol.eof → w ++ after = [] := by
    intro heof
    rcases htoken.symbol with ⟨_, hend⟩ | ⟨herror | hterminal, _⟩
    · rw [hsize] at hend
      simp only [List.length_append] at hend
      exact List.length_eq_zero_iff.1 (by rw [List.length_append]; omega)
    · rw [heof] at herror
      cases herror
    · rw [heof] at hterminal
      exact absurd hterminal.1 (Nat.lt_irrefl 0)
  refine ⟨⟨p ++ w, after, rfl, .token id token p w hkind hpadding hwidth ?_⟩, rfl, hkind, ?_⟩
  · intro hsymbol
    exact (List.append_eq_nil_iff.1 (heof hsymbol)).1
  · intro hsymbol
    rw [List.append_assoc, heof hsymbol, List.append_nil]
    exact hpadding

theorem coversAll_of_lexesAll (hsetting : setting.WellFormed) {position : Length}
    {trees : List Subtree} (h : setting.LexesAll position trees)
    (htext : setting.text.data.toList = done ++ rest) (hposition : position = Length.ofList done)
    (count : Nat) :
    ∃ u after, rest = u ++ after ∧ CoversAll setting.table (trees.take count) u := by
  induction h generalizing done rest count with
  | nil position => exact ⟨[], rest, rfl, by rw [List.take_nil]; exact .nil⟩
  | cons position tree trees htree _ ih =>
      cases count with
      | zero => exact ⟨[], rest, rfl, .nil⟩
      | succ count =>
          rw [hposition] at htree
          obtain ⟨⟨u, after, rfl, hcovers⟩, _⟩ := covers_of_lexes hsetting htext htree
          rw [← List.append_assoc] at htext
          obtain ⟨x, after', rfl, hall⟩ := ih htext
            (by rw [hposition, hcovers.total_eq, Length.ofList_append]) count
          exact ⟨u ++ x, after', by rw [List.append_assoc], .cons tree _ u x hcovers hall⟩

/-- A token ends in the text, and only the end of input is empty. -/
theorem bytes_total_of_lexes (hsetting : setting.WellFormed) {position : Nat}
    (hle : position ≤ setting.text.size) {mode : LexMode} (h : setting.Lexes position mode t) :
    position + t.total.bytes ≤ setting.text.size ∧
      (t.symbol ≠ Symbol.eof → 0 < t.total.bytes) := by
  obtain ⟨id, rfl⟩ := h
  obtain ⟨start, stop, htoken⟩ :=
    Lexer.tokenAt_lex hsetting.lexer hsetting.scanner hle mode
  have hstart := htoken.position_le
  have hstop := htoken.start_le
  have hend := htoken.stop_le
  have htotal : (Subtree.ofToken setting.table id
      (setting.language.lex setting.text position mode)).total.bytes = stop - position := by
    change (setting.language.lex setting.text position mode).padding.bytes +
      (setting.language.lex setting.text position mode).size.bytes = _
    rw [Language.lex, htoken.padding, htoken.size, Lexer.bytes_lengthBetween,
      Lexer.bytes_lengthBetween]
    omega
  rw [htotal]
  refine ⟨by omega, fun hne => ?_⟩
  rcases htoken.symbol with ⟨heof, _⟩ | ⟨_, hlt⟩
  · exact absurd heof hne
  · omega

/-! ### Moves -/

/-- A stack may take the place of another that covers the same. -/
theorem follows_withStack (h : v.Follows setting done rest) {stack : Stack}
    (hstack : stack.Tiles setting.table done) :
    { v with stack := stack }.Follows setting done rest :=
  { h with stack := hstack }

theorem follows_lex (hsetting : setting.WellFormed) {stack : Stack} {position : Length}
    (htext : setting.text.data.toList = done ++ rest) (hposition : position = Length.ofList done)
    (hstack : stack.Tiles setting.table done) {mode : LexMode}
    (hlex : setting.Lexes position.bytes mode t) :
    (⟨stack, position, some t⟩ : Version).Follows setting done rest := by
  have hlex' := hlex
  rw [hposition] at hlex'
  obtain ⟨hcovers, _, hkind, _⟩ := covers_of_lexes hsetting htext hlex'
  refine ⟨htext, hposition, hstack, ?_, ?_, ?_⟩
  · rintro _ ⟨⟩
    exact hcovers
  · rintro _ ⟨⟩ _
    exact hkind
  · rintro _ ⟨⟩ _ _
    exact ⟨mode, hlex⟩

theorem follows_shift (h : v.Follows setting done rest) (ht : v.lookahead = some t) {tree : Subtree}
    (htree : ∀ u, Covers setting.table t u → Covers setting.table tree u) (state : StateId)
    (pending : Bool) (hpending : pending = true → tree.isLeaf = false) :
    ∃ done' rest', Version.Follows setting ⟨v.stack.push state tree pending, v.position + t.total,
      none⟩ done' rest' := by
  obtain ⟨u, after, rfl, hcovers⟩ := h.lookahead t ht
  refine ⟨done ++ u, after, ?_, ?_, h.stack.push (htree u hcovers) state pending hpending, nofun,
    nofun, nofun⟩
  · rw [List.append_assoc]
    exact h.text
  · rw [h.position, hcovers.total_eq, Length.ofList_append]

theorem intact_of_accepts {table : Table} {state : StateId}
    (h : ReuseCursor.accepts table state t = true) :
    t.flags.hasChanges = false ∧ t.flags.hasError = false ∧ t.size.bytes ≠ 0 := by
  simp only [ReuseCursor.accepts, Bool.and_eq_true, Bool.not_eq_true', bne_iff_ne] at h
  obtain ⟨⟨⟨⟨⟨⟨hchanges, herror⟩, _⟩, _⟩, hsize⟩, _⟩, _⟩ := h
  exact ⟨hchanges, herror, hsize⟩

/-- What is taken over is no leaf at the end of input. -/
theorem follows_reuse (hold : ∀ start ∈ old, start.Agrees setting.table setting.text.data.toList)
    (h : v.Follows setting done rest) {start cursor : ReuseCursor} (hstart : old = some start)
    (hcursor : start.Reaches cursor) (htree : cursor.rest.head? = some t)
    (hoffset : cursor.offset = v.position.bytes)
    (haccepts : ReuseCursor.accepts setting.table v.stack.state t = true) :
    { v with lookahead := some t }.Follows setting done rest := by
  rw [h.position, Length.bytes_ofList] at hoffset
  obtain ⟨u, after, heq, hcovers⟩ := hold start hstart cursor t v.stack.state hcursor htree haccepts
    done rest h.text hoffset
  obtain ⟨_, herror, hsize⟩ := intact_of_accepts haccepts
  refine { h with lookahead := ?_, token := ?_, eof := ?_ }
  · rintro _ ⟨⟩
    exact ⟨u, after, heq, hcovers⟩
  · rintro _ ⟨⟩ hleaf
    cases hcovers with
    | token id token padding size hsymbol => exact hsymbol
    | missing => cases herror
    | interior => simp at hleaf
    | root => simp at hleaf
  · rintro _ ⟨⟩ hleaf hsymbol
    cases hcovers with
    | token id token padding size _ _ hwidth heof =>
        refine absurd ?_ hsize
        rw [Subtree.size, Subtree.ofToken, Subtree.head, hwidth, heof hsymbol]
        rfl
    | missing => cases herror
    | interior => simp at hleaf
    | root => simp at hleaf

/-- The lookahead and the tokens behind it, as far as they are passed. -/
theorem coversAll_passed (hsetting : setting.WellFormed) (h : v.Follows setting done rest)
    (ht : v.lookahead = some t) {more : List Subtree}
    (hmore : setting.LexesAll (v.position + t.total) more) (skipped : Nat) :
    ∃ u after, rest = u ++ after ∧ CoversAll setting.table ((t :: more).take skipped) u := by
  cases skipped with
  | zero => exact ⟨[], rest, rfl, .nil⟩
  | succ skipped =>
      obtain ⟨u, after, rfl, hcovers⟩ := h.lookahead t ht
      have htext := h.text
      rw [← List.append_assoc] at htext
      obtain ⟨x, after', rfl, hall⟩ := coversAll_of_lexesAll hsetting hmore htext
        (by rw [h.position, hcovers.total_eq, Length.ofList_append]) skipped
      exact ⟨u ++ x, after', by rw [List.append_assoc], .cons t _ u x hcovers hall⟩

theorem exists_follows_of_moves (hsetting : setting.WellFormed)
    (hold : ∀ start ∈ old, start.Agrees setting.table setting.text.data.toList)
    (h : v.Follows setting done rest) (hmove : setting.Moves old v v') :
    ∃ done' rest', v'.Follows setting done' rest' := by
  cases hmove with
  | lex mode tree hlex => exact ⟨done, rest, follows_lex hsetting h.text h.position h.stack hlex⟩
  | reuse start cursor tree hstart hcursor htree hoffset haccepts =>
      exact ⟨done, rest, follows_reuse hold h hstart hcursor htree hoffset haccepts⟩
  | enter lookahead hlookahead hnode =>
      exact ⟨done, rest, { h with lookahead := nofun, token := nofun, eof := nofun }⟩
  | reduce s p forked id hs haction =>
      exact ⟨done, rest, follows_withStack h (tiles_reduceStack h.stack forked p id)⟩
  | shift lookahead next hlookahead hleaf haction =>
      exact follows_shift h hlookahead (fun _ hcovers => hcovers) next false nofun
  | shiftExtra lookahead hlookahead hleaf hextra hnone =>
      exact follows_shift h hlookahead (fun _ hcovers => hcovers) v.stack.state false nofun
  | shiftReused lookahead target next hlookahead hnode haction hnext =>
      exact follows_shift h hlookahead (fun _ hcovers => hcovers) next true (fun _ => hnode)
  | breakPending lookahead hlookahead hleaf hnone =>
      exact ⟨done, rest, follows_withStack h (tiles_breakPending h.stack)⟩
  | missing s next id hs haction =>
      have hpushed := h.stack.push
        (.missing id s (setting.table.lexMode v.stack.state)) next false nofun
      rw [List.append_nil] at hpushed
      exact ⟨done, rest, follows_withStack h hpushed⟩
  | skip lookahead relexed more popped skipped id mode hlookahead hleaf hmore hrelexed =>
      obtain ⟨u, after, rfl, hpassed⟩ := coversAll_passed hsetting h hlookahead hmore skipped
      refine ⟨done ++ u, after, follows_lex hsetting ?_ ?_
        (tiles_skipVersion h.stack popped skipped id relexed hpassed) hrelexed⟩
      · rw [List.append_assoc]
        exact h.text
      · rw [foldl_add_total, h.position, hpassed.totalAll_eq, Length.ofList_append]
  | skipLookahead lookahead id hlookahead hleaf =>
      exact follows_shift h hlookahead
        (fun _ hcovers => (coversAll_singleton hcovers).covers_ofSkipped id) v.stack.state false nofun

theorem exists_follows_of_reached (hsetting : setting.WellFormed)
    (hold : ∀ start ∈ old, start.Agrees setting.table setting.text.data.toList)
    (h : setting.Reached old v) : ∃ done rest, v.Follows setting done rest := by
  induction h with
  | start =>
      exact ⟨[], setting.text.data.toList, rfl, rfl, ⟨.nil, nofun⟩, nofun, nofun, nofun⟩
  | move v v' _ hmove ih =>
      obtain ⟨done, rest, hfollows⟩ := ih
      exact exists_follows_of_moves hsetting hold hfollows hmove

/-! ### Ends -/

theorem lex_size (hsetting : setting.WellFormed) (mode : LexMode) :
    (setting.language.lex setting.text setting.text.size mode).symbol = Symbol.eof ∧
      (setting.language.lex setting.text setting.text.size mode).padding = Length.zero := by
  obtain ⟨start, stop, htoken⟩ :=
    Lexer.tokenAt_lex hsetting.lexer hsetting.scanner (Nat.le_refl setting.text.size) mode
  have hstart := htoken.position_le
  have hle := htoken.start_le
  have hstop := htoken.stop_le
  rw [Language.lex]
  constructor
  · rcases htoken.symbol with ⟨heof, _⟩ | ⟨_, hlt⟩
    · exact heof
    · omega
  · have heq : start = setting.text.size := by omega
    rw [htoken.padding, heq, Lexer.lengthBetween, Length.ofBytes_extract,
      List.drop_of_length_le (List.length_take_le _ _), Length.ofList_nil]

theorem coversAll_remainder (h : v.Follows setting done rest) (id : Nat) :
    CoversAll setting.table (setting.remainder id v.position) rest := by
  have hlength : Length.ofBytes (setting.text.extract v.position.bytes setting.text.size)
      = Length.ofList rest := by
    have htake : setting.text.data.toList.take setting.text.size = setting.text.data.toList :=
      List.take_of_length_le (Nat.le_refl _)
    rw [Length.ofBytes_extract, htake, h.position, Length.bytes_ofList, h.text, List.drop_left]
  rw [remainder, hlength]
  split
  · exact coversAll_singleton (.token id ⟨Symbol.error, Length.zero, Length.ofList rest, 1,
      LexMode.error⟩ [] rest (.inl rfl) rfl rfl nofun)
  · rename_i hempty
    rw [Length.bytes_ofList] at hempty
    rw [List.length_eq_zero_iff.1 (Nat.eq_zero_of_not_pos hempty)]
    exact .nil

/-- The tree at the end of a parse has a root over all of the text, up to the padding of the end of
input. -/
theorem isRootOver_of_ends (hsetting : setting.WellFormed) (hstart : setting.table.StartIsNode)
    (hold : ∀ start ∈ old, start.Agrees setting.table setting.text.data.toList) {tree : Tree}
    (h : setting.Ends old tree) : tree.language = setting.language ∧ ∃ covered after,
      setting.text.data.toList = covered ++ after ∧
      IsRootOver setting.table covered after tree.root ∧
      (0 < setting.options.maxVersions → ∃ mode,
        (setting.language.lex setting.text covered.length mode).symbol = Symbol.eof ∧
        (setting.language.lex setting.text covered.length mode).padding = Length.ofList after) := by
  cases h with
  | accepted v a id hreached haccepted =>
      obtain ⟨done, rest, hfollows⟩ := exists_follows_of_reached hsetting hold hreached
      obtain ⟨t, ht, htrailing, hleaf, haction⟩ := haccepted.lookahead
      have heof : t.symbol = Symbol.eof := by
        rcases haction with haction | heof
        · rcases hfollows.token t ht hleaf with herror | hterminal
          · rw [herror] at haction
            cases haction
          · exact hsetting.accept _ _ hterminal haction
        · exact heof
      obtain ⟨mode, hlex⟩ := hfollows.eof t ht hleaf heof
      rw [hfollows.position] at hlex
      obtain ⟨_, _, _, hpadding⟩ := covers_of_lexes hsetting hfollows.text hlex
      have hpadding := hpadding heof
      have hroot := isRootOver_buildRoot hstart id rest hfollows.stack.trees .nil
      rw [List.append_nil] at hroot
      refine ⟨rfl, done, rest, hfollows.text, ?_, fun _ => ⟨mode, ?_⟩⟩
      · rw [haccepted.trees, htrailing, hpadding]
        exact hroot
      · obtain ⟨id', rfl⟩ := hlex
        rw [Length.bytes_ofList] at heof hpadding
        exact ⟨heof, hpadding⟩
  | stopped v id status hreached =>
      obtain ⟨done, rest, hfollows⟩ := exists_follows_of_reached hsetting hold hreached
      have hroot := isRootOver_buildRoot hstart (id + 1) [] hfollows.stack.trees
        (coversAll_remainder hfollows id)
      refine ⟨rfl, done ++ rest, [], ?_, hroot, fun _ => ⟨LexMode.error, ?_⟩⟩
      · rw [List.append_nil]
        exact hfollows.text
      · rw [← hfollows.text]
        exact lex_size hsetting LexMode.error
  | nothing id hmax =>
      exact ⟨rfl, [], setting.text.data.toList, rfl,
        isRootOver_buildRoot hstart id setting.text.data.toList .nil .nil,
        fun hpos => absurd hmax (Nat.ne_of_gt hpos)⟩

theorem spans_of_ends (hsetting : setting.WellFormed) (hstart : setting.table.StartIsNode)
    (hold : ∀ start ∈ old, start.Agrees setting.table setting.text.data.toList) {tree : Tree}
    (h : setting.Ends old tree) : tree.language = setting.language ∧ tree.Spans setting.text ∧
      (0 < setting.options.maxVersions → tree.EndsInPadding setting.text) := by
  obtain ⟨hlanguage, covered, after, htext, hroot, hend⟩ :=
    isRootOver_of_ends hsetting hstart hold h
  rw [table, ← hlanguage] at hroot
  obtain ⟨hspans, hleaves⟩ := Tree.spans_of_isRootOver hroot htext
  refine ⟨hlanguage, hspans, fun hmax => ?_⟩
  obtain ⟨mode, heof, hpadding⟩ := hend hmax
  rw [← hlanguage, ← Length.bytes_ofList] at heof hpadding
  refine ⟨Length.ofList covered, mode, hleaves, heof, ?_⟩
  rw [hpadding, hspans.size, ← Length.ofList_append, ← htext]
  rfl

end ParseSetting

/-! ### Parsers -/

variable {d : GrammarDef} {policy : ConflictPolicy} {l : Language} {p : Parser}

theorem Language.table_of_load {g : Grammar} (h : l.CompiledFrom g policy) :
    l.lexer.WellFormed ∧ l.lexer.terminalCount = l.table.terminalCount ∧
      l.table.isTerminal Symbol.eof = true ∧
      ∀ (state : StateId) (s : Symbol), l.table.isTerminal s = true →
        .accept ∈ l.table.actionList state s → s = Symbol.eof := by
  obtain ⟨hfrom, _⟩ := Table.compile_eq_ok h.table
  obtain ⟨hlexer, hcount⟩ := Lexer.wellFormed_ofTable h.grammar hfrom h.lexer
  refine ⟨hlexer, hcount, ?_, fun state s hs => Table.eq_eof_of_accept h.grammar h.table hs⟩
  refine decide_eq_true ?_
  rw [hfrom.terminalCount]
  exact h.grammar.terminals

theorem Parser.table_setting {scanner : Option ExternalScanner} {number : Nat}
    (hp : p.language = { l with scanner := scanner, id := number }) (text : ByteArray) :
    (p.setting text).table = l.table := by
  rw [ParseSetting.table, show (p.setting text).language = _ from hp]

theorem Parser.setting_wellFormed (hl : Language.load d policy = .ok l)
    {scanner : Option ExternalScanner} (hscanner : ∀ x ∈ scanner, x.ReadsForward) {number : Nat}
    (hp : p.language = { l with scanner := scanner, id := number }) (text : ByteArray) :
    (p.setting text).WellFormed := by
  obtain ⟨g, _, hfrom⟩ := Language.exists_compiledFrom_of_load hl
  obtain ⟨hlexer, hcount, heof, haccept⟩ := Language.table_of_load hfrom
  have hlanguage : (p.setting text).language = { l with scanner := scanner, id := number } := hp
  constructor
  · rw [hlanguage]
    exact hlexer
  · rw [ParseSetting.table, hlanguage]
    exact hcount
  · rw [ParseSetting.table, hlanguage]
    exact heof
  · rw [hlanguage]
    exact hscanner
  · rw [ParseSetting.table, hlanguage]
    exact haccept

/-- The cursor over what a parse takes over from an old tree. -/
def Parser.cursor? (p : Parser) (old : Option Tree) : Option ReuseCursor :=
  (old.filter fun tree => tree.language.isSame p.language).map fun tree =>
    ReuseCursor.ofRoot tree.root

/-- The cursor of a parse is that over an old tree of the same language. -/
theorem Parser.forall_cursor? {p : Parser} {old : Option Tree} {Q : ReuseCursor → Prop}
    (hold : ∀ tree ∈ old, tree.language.isSame p.language = true →
      Q (ReuseCursor.ofRoot tree.root)) :
    ∀ start ∈ p.cursor? old, Q start := by
  intro start hstart
  obtain ⟨tree, htree, rfl⟩ := Option.map_eq_some_iff.1 hstart
  obtain ⟨htree, hsame⟩ := Option.filter_eq_some_iff.1 htree
  exact hold tree htree hsame

theorem Parser.ends_parse (p : Parser) (text : ByteArray) (old : Option Tree) (id : Nat) :
    (p.setting text).Ends (p.cursor? old) (p.parse text old id).tree := by
  have hsound : ParseState.Sound ((p.setting text).reaching (p.cursor? old)) _ :=
    ParseSetting.sound_start (p.cursor? old) id
  exact ParseSetting.ends_run hsound p.options.operationLimit

/-- A parse of any text ends with a tree that spans it, at whatever point it is stopped. -/
theorem Parser.parse_spans (hl : Language.load d policy = .ok l) (hstart : l.table.StartIsNode)
    {scanner : Option ExternalScanner} (hscanner : ∀ x ∈ scanner, x.ReadsForward) {number : Nat}
    (hp : p.language = { l with scanner := scanner, id := number }) (text : ByteArray) (id : Nat) :
    (p.parse text none id).tree.language = p.language ∧ (p.parse text none id).tree.Spans text ∧
      (0 < p.options.maxVersions → (p.parse text none id).tree.EndsInPadding text) := by
  have hsetting := Parser.setting_wellFormed hl hscanner hp text
  have htable : (p.setting text).table.StartIsNode := by
    rw [ParseSetting.table, show (p.setting text).language = _ from hp]
    exact hstart
  refine ParseSetting.spans_of_ends hsetting htable ?_ (p.ends_parse text none id)
  intro start hnone
  cases hnone

theorem exists_load_optionalToken :
    ∃ l, Language.load .optionalToken .strict = .ok l ∧ l.table.StartIsNode := by
  obtain ⟨t, ht, _⟩ := exists_compile_optionalToken
  obtain ⟨l, hl, rfl⟩ := Language.exists_load load_optionalToken ht (by decide +kernel)
  obtain ⟨hfrom, _⟩ := Table.compile_eq_ok ht
  refine ⟨l, hl, fun hterminal => ?_⟩
  rw [Table.isTerminal, hfrom.startSymbol, hfrom.terminalCount] at hterminal
  cases hterminal

/-- A text of one token is spanned, whether the token fits or not. -/
theorem parse_spans_optionalToken : ∃ l, Language.load .optionalToken .strict = .ok l ∧
    ((Parser.ofLanguage { l with scanner := none, id := 1 }).parse "x".toUTF8 none 0).tree.Spans
      "x".toUTF8 := by
  obtain ⟨l, hl, hstart⟩ := exists_load_optionalToken
  have hnone : ∀ x ∈ (none : Option ExternalScanner), x.ReadsForward := by
    intro x hx
    cases hx
  exact ⟨l, hl, (Parser.parse_spans hl hstart hnone rfl "x".toUTF8 0).2.1⟩

end IncrementalLR
