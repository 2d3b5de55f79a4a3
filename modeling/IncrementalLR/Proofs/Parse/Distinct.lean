import IncrementalLR.Proofs.Parse.Numbering
import IncrementalLR.Proofs.Parse.Spanning

/-!
# Distinct numbers on every stack

Every operation of a parse keeps it so that no number is twice on the stack of a version, with its
lookahead. What one version does to the numbers does not touch the others: they have none of those that
are given out later, and the cursor is only moved when there are no others. So no number is twice in the
tree at the end.
-/

namespace IncrementalLR

open Subtree (idsAll Numbered Renews)

namespace ParseSetting

variable (setting : ParseSetting)

/-! ### Stacks -/

theorem renews_reduceStack (forked : Bool) (p : ProductionId) (id : Nat) (s : Stack) :
    Renews id (setting.reduceStack forked p id s).2 s.trees
      (setting.reduceStack forked p id s).1.trees := by
  have hchildren := Renews.balanceWhere setting.table setting.bases
    (·.symbol != (setting.table.production p).lhs) id
    (s.popTrailing.2.popStructural (setting.table.production p).rhs.size).1
  have hnode := fun fragile => hchildren.trans
    (.interior setting.table _ (setting.table.production p).lhs _ (some p) fragile)
  rw [s.trees_popTrailing,
    s.popTrailing.2.trees_popStructural (setting.table.production p).rhs.size, reduceStack]
  simp only
  split
  · rw [Stack.trees_pushAll, Stack.trees_push]
    exact ((hnode _).append_left _).append_right _
  · rw [Stack.trees_push, List.append_assoc]
    exact (((hnode _).append_right _).trans (.ofSkipped setting.table _ _)).append_left _

theorem renews_breakPending (table : Table) (id : Nat) (s : Stack) :
    Renews id id s.trees (breakPending table s).2.trees := by
  fun_induction breakPending table s with
  | case1 => exact .refl id _
  | case2 s top below hframes _ rest _ state =>
      rw [Stack.trees_push, Stack.trees_of_cons hframes]
      exact .refl id _
  | case3 s top below hframes _ rest pushes hpushes ih =>
      refine .trans ?_ ih
      rw [Stack.trees_of_cons hframes, trees_pushPending, map_snd_of_childStates? hpushes]
      exact (Renews.children top.tree).append_left _
  | case4 => exact .refl id _

theorem renews_skipVersion (v : Version) (tokens : List Subtree) (popped skipped id : Nat)
    (relexed : Subtree) : Renews id (id + 1) (v.stack.trees ++ tokens.take skipped)
      (setting.skipVersion v tokens popped skipped id relexed).stack.trees := by
  rw [v.stack.trees_drop popped, List.append_assoc, skipVersion]
  simp only
  split
  · rename_i hempty
    rw [List.isEmpty_iff.1 hempty, List.append_nil]
    exact .unused (Nat.le_succ id) _
  · rw [Stack.trees_push]
    exact (Renews.ofSkipped setting.table id _).append_left _

theorem renews_buildRoot (id : Nat) (trees tail : List Subtree) (trailing : Length) :
    Renews id (setting.buildRoot id trees tail trailing).2 (trees ++ tail)
      [(setting.buildRoot id trees tail trailing).1] := by
  have hbalanced := Renews.balanceWhere setting.table setting.bases (fun _ => true) id trees
  have hroot : ∀ (next : Nat) (children : List Subtree) (production : Option ProductionId),
      Renews id next trees children →
      let root := Subtree.interior setting.table next setting.table.startSymbol (children ++ tail)
        production false
      Renews id (next + 1) (trees ++ tail) [root.stretched (root.total + trailing)] := by
    intro next children production hchildren
    refine (hchildren.append_right tail).trans ?_
    have hnode := Renews.interior setting.table next setting.table.startSymbol (children ++ tail)
      production false
    refine ⟨hnode.le, fun k => ?_⟩
    have hcount := hnode.count k
    rw [Subtree.idsAll_singleton] at hcount ⊢
    rwa [Subtree.ids_stretched]
  rw [buildRoot]
  refine hroot _ _ _ ?_
  split
  · rename_i before t after hsole
    obtain ⟨htrees, _⟩ := soleStart?_spec hsole
    rw [htrees] at hbalanced
    refine hbalanced.trans ?_
    rw [← List.singleton_append, ← List.append_assoc]
    exact ((Renews.children t).append_left before).append_right after
  · split
    · exact hbalanced.trans (.ofSkipped setting.table _ _)
    · exact hbalanced

end ParseSetting

/-! ### Versions -/

/-- The numbers on the stack of a version are distinct, and so are they with its lookahead, which is given
up if it is the end of input. A lookahead that is a node is in front of the cursor. -/
structure Version.Distinct (m : Numbering) (v : Version) : Prop where
  stack : m.Admits v.stack.trees v.position.bytes
  lookahead : ∀ t ∈ v.lookahead, t.IsEnd ∨
    m.Admits (v.stack.trees ++ [t]) (v.position + t.total).bytes
  cursor : ∀ t ∈ v.lookahead, t.isLeaf = false →
    ∃ c ∈ m.reuse, c.offset = v.position.bytes ∧ c.rest.head? = some t

namespace Version.Distinct

variable {m m' : Numbering} {first n : Nat} {v : Version} {c : TokenCache} {t : Subtree}

theorem grows (h : v.Distinct m) (hm : m.Grows m') : v.Distinct m' where
  stack := h.stack.grows hm
  lookahead t ht := (h.lookahead t ht).imp_right fun h => h.grows hm
  cursor t ht hnode := by
    rw [hm.reuse]
    exact h.cursor t ht hnode

theorem withStack (h : v.Distinct m) (hm : m.StartsAt first) {stack : Stack}
    (hrenews : Renews m.nextId n v.stack.trees stack.trees) :
    { v with stack := stack }.Distinct { m with nextId := n } where
  stack := h.stack.renews hm hrenews
  lookahead t ht := (h.lookahead t ht).imp_right fun h => h.renews hm (hrenews.append_right [t])
  cursor := h.cursor

/-- The token that the lexer gave last becomes the lookahead where it stands. -/
theorem of_token (hm : m.StartsAt first) {stack : Stack} {position : Length}
    (h : m.Admits stack.trees position.bytes) (hc : c ∈ m.cache)
    (hposition : c.position = position.bytes) :
    (⟨stack, position, some c.tree⟩ : Version).Distinct m where
  stack := h
  lookahead t ht := by
    obtain rfl := Option.mem_some_iff.1 ht
    exact (hm.cache c hc).1.pos.imp_right fun hpos => h.token hm hc hposition hpos
  cursor t ht hnode := by
    obtain rfl := Option.mem_some_iff.1 ht
    rw [(hm.cache c hc).1.isLeaf] at hnode
    cases hnode

/-- What takes the place of the lookahead is shifted. -/
theorem shifted (h : v.Distinct m) (ht : v.lookahead = some t) (hend : ¬ t.IsEnd)
    (hm : m.StartsAt first) {tree : Subtree} (hrenews : Renews m.nextId n [t] [tree])
    (state : StateId) (pending : Bool) :
    (⟨v.stack.push state tree pending, v.position + t.total, none⟩ : Version).Distinct
      { m with nextId := n } where
  stack := by
    rw [Stack.trees_push]
    exact ((h.lookahead t ht).resolve_left hend).renews hm (hrenews.append_left _)
  lookahead := nofun
  cursor := nofun

end Version.Distinct

/-! ### States -/

/-- All numbers in the state are given out from `first` on or are those of the old tree, and those of every
version are distinct. Where there are several versions they have tokens as lookaheads. -/
structure ParseState.Distinct (first : Nat) (s : ParseState) : Prop where
  numbering : s.numbering.StartsAt first
  versions : ∀ v ∈ s.versions, v.Distinct s.numbering
  accepted : ∀ a ∈ s.accepted, Numbered s.nextId a.trees
  leaves : s.isForked = true → ∀ v ∈ s.versions, ∀ t ∈ v.lookahead, t.isLeaf = true

/-- Numbers were given out and a token was lexed, and all else is as it was. -/
structure ParseState.Issues (first : Nat) (s s' : ParseState) : Prop where
  versions : s'.versions = s.versions
  accepted : s'.accepted = s.accepted
  numbering : s'.numbering.StartsAt first
  grows : s.numbering.Grows s'.numbering

namespace ParseState

variable {first i n : Nat} {s s' s'' : ParseState} {v w : Version} {t : Subtree}

theorem Issues.refl (h : s.numbering.StartsAt first) : s.Issues first s :=
  ⟨rfl, rfl, h, .refl _⟩

theorem Issues.trans (h : s.Issues first s') (h' : s'.Issues first s'') : s.Issues first s'' :=
  ⟨h'.versions.trans h.versions, h'.accepted.trans h.accepted, h'.numbering, h.grows.trans h'.grows⟩

theorem issues_withNextId (h : s.numbering.StartsAt first) (hle : s.nextId ≤ n) :
    s.Issues first { s with nextId := n } :=
  ⟨rfl, rfl, h.nextId hle, Numbering.grows_nextId (m := s.numbering) hle⟩

namespace Distinct

theorem of_getElem? (h : s.Distinct first) (hv : s.versions[i]? = some v) :
    v.Distinct s.numbering :=
  h.versions v (List.mem_of_getElem? hv)

theorem issues (h : s.Distinct first) (hs : s.Issues first s') : s'.Distinct first where
  numbering := hs.numbering
  versions v hv := (h.versions v (hs.versions ▸ hv)).grows hs.grows
  accepted a ha := (Renews.unused hs.grows.le _).numbered (h.accepted a (hs.accepted ▸ ha))
  leaves hforked v hv := by
    rw [isForked, hs.versions] at hforked
    exact h.leaves hforked v (hs.versions ▸ hv)

theorem count (h : s.Distinct first) (f : ParseStats → ParseStats) : (s.count f).Distinct first :=
  ⟨h.numbering, h.versions, h.accepted, h.leaves⟩

theorem setVersion (h : s.Distinct first) (hw : w.Distinct s.numbering)
    (hleaf : s.isForked = true → ∀ t ∈ w.lookahead, t.isLeaf = true) :
    (s.setVersion i w).Distinct first where
  numbering := h.numbering
  versions u hu := by
    rcases List.mem_or_eq_of_mem_set hu with hu | rfl
    · exact h.versions u hu
    · exact hw
  accepted := h.accepted
  leaves hforked u hu := by
    rw [isForked, ParseState.setVersion, List.length_set] at hforked
    rcases List.mem_or_eq_of_mem_set hu with hu | rfl
    · exact h.leaves hforked u hu
    · exact hleaf hforked

/-- Versions may be left out. -/
theorem sublist (h : s.Distinct first) {versions : List Version}
    (hversions : versions.length ≤ s.versions.length) (hmem : ∀ v ∈ versions, v ∈ s.versions) :
    { s with versions := versions }.Distinct first where
  numbering := h.numbering
  versions v hv := h.versions v (hmem v hv)
  accepted := h.accepted
  leaves hforked v hv := by
    have hlt : 1 < versions.length := of_decide_eq_true hforked
    exact h.leaves (decide_eq_true (Nat.lt_of_lt_of_le hlt hversions)) v (hmem v hv)

theorem removeVersion (h : s.Distinct first) : (s.removeVersion i).Distinct first :=
  h.sublist (List.length_eraseIdx_le _ _) fun _ hv => List.mem_of_mem_eraseIdx hv

end Distinct

end ParseState

/-! ### Tokens -/

/-- The end of input is neither shifted nor an extra. -/
structure ParseSetting.EndsAtEof (setting : ParseSetting) : Prop where
  shift : ∀ state next, .shift next ∉ setting.table.actionList state Symbol.eof
  extra : (setting.table.symbolInfo Symbol.eof).extra = false

namespace ParseSetting

variable {setting : ParseSetting} {first i n : Nat} {s s' : ParseState} {v : Version} {t : Subtree}

theorem isLexed_token (h : setting.EndsAtEof) (input : Option Text.Input) (position : Nat)
    (mode : LexMode) (id : Nat) :
    (Subtree.ofToken setting.table id (setting.token input position mode).1).IsLexed := by
  obtain ⟨text, htoken⟩ : ∃ text, (setting.token input position mode).1
      = setting.language.lex text position mode := by
    cases input with
    | none => exact ⟨setting.text, rfl⟩
    | some input =>
        exact ⟨input.text, (setting.language.lexer.lexFrom_spec input position mode
          setting.language.scanner).1⟩
  rw [htoken]
  refine ⟨rfl, rfl, ?_⟩
  by_cases heof : (setting.language.lex text position mode).symbol = Symbol.eof
  · refine .inl ⟨rfl, heof, ?_⟩
    change (setting.table.symbolInfo (setting.language.lex text position mode).symbol).extra = false
    rw [heof]
    exact h.extra
  · exact .inr (Nat.add_pos_right _ (setting.language.lexer.bytes_lex_pos text position mode
      setting.language.scanner heof))

/-- The lexer gives the token that it gave last, or one with a new number. -/
theorem issues_lex (h : setting.EndsAtEof) (hs : s.numbering.StartsAt first) (position : Nat)
    (mode : LexMode) :
    s.Issues first (setting.lex s position mode).2 ∧
      ∃ c ∈ (setting.lex s position mode).2.cache, c.position = position ∧
        c.tree = (setting.lex s position mode).1 := by
  rw [ParseSetting.lex]
  cases hcached : s.cache.bind fun c =>
      if c.position = position ∧ c.mode = mode then some c.tree else none with
  | some tree =>
      obtain ⟨c, hc, hsome⟩ := Option.bind_eq_some_iff.1 hcached
      simp only [Option.ite_none_right_eq_some, Option.some.injEq] at hsome
      exact ⟨.refl hs, c, hc, hsome.1.1, hsome.2⟩
  | none =>
      have htoken := isLexed_token h s.input position mode s.nextId
      refine ⟨⟨rfl, rfl, ⟨Nat.le_succ_of_le hs.le, ?_, hs.reuse⟩, Nat.le_succ _, ?_, rfl⟩,
        _, rfl, rfl, rfl⟩
      · intro c hc
        obtain rfl := Option.mem_some_iff.1 hc
        exact ⟨htoken, hs.le, Nat.lt_succ_self _⟩
      · intro c hc
        obtain rfl := Option.mem_some_iff.1 hc
        exact .inr (Nat.le_refl _)

/-- A version gets its lookahead, which is a token where there are several versions. -/
structure Fetches (first : Nat) (s : ParseState) (v : Version) (result : Subtree × ParseState) :
    Prop where
  state : result.2.Distinct first
  versions : result.2.versions = s.versions
  version : { v with lookahead := some result.1 }.Distinct result.2.numbering
  leaf : s.isForked = true → result.1.isLeaf = true

theorem fetches_lex (h : setting.EndsAtEof) (hs : s.Distinct first) (hv : v ∈ s.versions)
    (mode : LexMode) : Fetches first s v (setting.lex s v.position.bytes mode) := by
  obtain ⟨hissues, c, hc, hposition, htree⟩ := issues_lex h hs.numbering v.position.bytes mode
  refine ⟨hs.issues hissues, hissues.versions, ?_, fun _ => ?_⟩
  · rw [← htree]
    exact .of_token hissues.numbering ((hs.versions v hv).stack.grows hissues.grows) hc hposition
  · rw [← htree]
    exact (hissues.numbering.cache c hc).1.isLeaf

/-- The cursor is moved for the only version, which has no lookahead then. -/
theorem distinct_withCursor (hs : s.Distinct first) (hv : v ∈ s.versions) {cursor moved : ReuseCursor}
    (hcursor : cursor ∈ s.reuse) (hreaches : cursor.Reaches moved)
    (hleft : (idsAll (moved.left v.position.bytes)).Sublist (idsAll (cursor.left v.position.bytes))) :
    { s with versions := [{ v with lookahead := none }], reuse := some moved }.Distinct first := by
  have hleft : (idsAll (moved.left v.position.bytes)).Sublist
      (idsAll (s.numbering.left v.position.bytes)) := by
    rw [Numbering.left, show s.numbering.reuse = some cursor from hcursor]
    exact hleft
  refine ⟨⟨hs.numbering.le, hs.numbering.cache, ?_⟩, ?_, hs.accepted,
    fun hforked => absurd hforked Bool.false_ne_true⟩
  · intro c hc
    obtain rfl := Option.mem_some_iff.1 hc
    exact hreaches.forall_mem (P := fun t => ∀ k ∈ t.ids, k < first)
      (fun t ht child hchild k hk => ht k (by
        rw [Subtree.ids_eq]
        exact List.mem_cons_of_mem _ (Subtree.mem_idsAll.2 ⟨child, hchild, hk⟩)))
      (hs.numbering.reuse cursor hcursor)
  · exact List.forall_mem_singleton.2 ⟨(hs.versions v hv).stack.moved hleft,
      fun t ht => absurd ht (Option.not_mem_none t), fun t ht => absurd ht (Option.not_mem_none t)⟩

/-- What comes next for a version without a lookahead. -/
theorem fetches_nextToken (h : setting.EndsAtEof) (hs : s.Distinct first)
    (hv : s.versions[i]? = some v) (hnone : v.lookahead = none) :
    Fetches first s v (setting.nextToken s v) := by
  have hmem := List.mem_of_getElem? hv
  rw [nextToken]
  cases hreuse : s.reuse with
  | none => exact fetches_lex h hs hmem _
  | some cursor =>
      by_cases hforked : s.isForked = true
      · simp only [if_pos hforked]
        exact fetches_lex h hs hmem _
      · simp only [if_neg hforked]
        obtain ⟨hsingle, rfl⟩ := ParseState.eq_singleton (Bool.eq_false_iff.2 hforked) hv
        obtain ⟨hmoved, htaken⟩ :=
          cursor.take_spec setting.table v.position.bytes v.stack.state
        have hdistinct := distinct_withCursor hs hmem hreuse hmoved
          (cursor.left_take_sublist setting.table v.position.bytes v.stack.state)
        have hself : ({ v with lookahead := none } : Version) = v := by rw [← hnone]
        rw [hself, ← hsingle] at hdistinct
        generalize cursor.take setting.table v.position.bytes v.stack.state = result at *
        obtain ⟨_ | tree, moved⟩ := result
        · have hfetches := fetches_lex h hdistinct hmem (setting.table.lexMode v.stack.state)
          exact ⟨hfetches.state, hfetches.versions, hfetches.version, hfetches.leaf⟩
        · obtain ⟨hhead, hoffset, haccepts⟩ := htaken tree rfl
          have hsize := (intact_of_accepts haccepts).2.2
          have hpos : 0 < tree.total.bytes := Nat.add_pos_right _ (Nat.pos_of_ne_zero hsize)
          have hversion : { v with lookahead := some tree }.Distinct
              { s with reuse := some moved }.numbering := by
            have hstack := (hdistinct.versions v hmem).stack
            refine ⟨hstack, ?_, ?_⟩
            · rintro _ ⟨⟩
              exact .inr (hstack.reused hdistinct.numbering rfl hoffset hhead hpos)
            · rintro _ ⟨⟩ _
              exact ⟨moved, rfl, hoffset, hhead⟩
          have hleaf : s.isForked = true → tree.isLeaf = true := fun h => absurd h hforked
          simp only
          split
          · exact ⟨hdistinct.count fun c => { c with reused := c.reused + 1 }, rfl, hversion, hleaf⟩
          · exact ⟨hdistinct, rfl, hversion, hleaf⟩

/-- A version with its lookahead, fetched if need be. -/
theorem distinct_looking (h : setting.EndsAtEof) (hs : s.Distinct first)
    (hv : s.versions[i]? = some v) :
    (setting.looking s i v).Distinct first ∧ (setting.looking s i v).versions[i]?
      = some { v with lookahead := some (setting.fetch s v).1 } := by
  have hfetches : Fetches first s v (setting.fetch s v) := by
    rw [fetch]
    cases hlookahead : v.lookahead with
    | none => exact fetches_nextToken h hs hv hlookahead
    | some t =>
        refine ⟨hs, rfl, ?_, fun hforked => hs.leaves hforked v (List.mem_of_getElem? hv) t hlookahead⟩
        have hself : ({ v with lookahead := some t } : Version) = v := by rw [← hlookahead]
        rw [hself]
        exact hs.of_getElem? hv
  constructor
  · refine hfetches.state.setVersion hfetches.version fun hforked t ht => ?_
    obtain rfl := Option.mem_some_iff.1 ht
    rw [ParseState.isForked, hfetches.versions] at hforked
    exact hfetches.leaf hforked
  · exact ParseState.getElem?_setVersion (by rw [hfetches.versions, hv]) _

/-! ### Actions -/

theorem distinct_reduce (hs : s.Distinct first) (p : ProductionId) :
    (setting.reduce s i p).Distinct first := by
  rw [reduce]
  split
  · exact hs
  · rename_i v hv
    have hrenews := setting.renews_reduceStack s.isForked p s.nextId v.stack
    have hissues := ParseState.issues_withNextId hs.numbering hrenews.le
    refine ((hs.issues hissues).setVersion ?_ ?_).count _
    · exact (hs.of_getElem? hv).withStack hs.numbering hrenews
    · exact fun hforked => hs.leaves hforked v (List.mem_of_getElem? hv)

theorem distinct_shiftVersion (hs : s.Distinct first) (hv : s.versions[i]? = some v)
    (ht : v.lookahead = some t) (hend : ¬ t.IsEnd) (state : StateId) (pending : Bool) :
    (s.setVersion i (shiftVersion v state t pending)).Distinct first :=
  hs.setVersion ((hs.of_getElem? hv).shifted ht hend hs.numbering (.refl s.nextId [t]) state pending)
    fun _ => nofun

theorem distinct_shift (hs : s.Distinct first) (hv : s.versions[i]? = some v)
    (ht : v.lookahead = some t) (hend : ¬ t.IsEnd) (state : StateId) :
    (shift s i state t).Distinct first := by
  rw [shift, hv]
  exact (distinct_shiftVersion hs hv ht hend state false).count _

theorem distinct_accept (hs : s.Distinct first) : (accept s i).Distinct first := by
  rw [accept]
  split
  · exact hs
  · rename_i v hv
    refine { hs.removeVersion (i := i) with accepted := fun a ha => ?_ }
    rcases List.mem_append.1 ha with ha | ha
    · exact hs.accepted a ha
    · rw [List.mem_singleton.1 ha]
      have hstack := (hs.of_getElem? hv).stack
      exact ⟨hstack.nodup, hstack.lt⟩

theorem EndsAtEof.not_isEnd_of_shift (h : setting.EndsAtEof) {state next : StateId}
    (haction : .shift next ∈ setting.table.actionList state t.symbol) : ¬ t.IsEnd := by
  intro hend
  rw [hend.symbol] at haction
  exact h.shift _ _ haction

theorem distinct_apply (h : setting.EndsAtEof) (hs : s.Distinct first)
    (hv : s.versions[i]? = some v) (ht : v.lookahead = some t) {action : Action}
    (haction : action ∈ setting.table.actionList v.stack.state t.symbol) :
    (setting.apply s i t action).Distinct first := by
  cases action with
  | shift next => exact distinct_shift hs hv ht (h.not_isEnd_of_shift haction) next
  | reduce p => exact distinct_reduce hs p
  | accept => exact distinct_accept hs
  | error | goto | ambig => exact hs

/-- Actions only give out numbers. -/
theorem grows_apply (s : ParseState) (i : Nat) (t : Subtree) (action : Action) :
    s.numbering.Grows (setting.apply s i t action).numbering := by
  cases action with
  | shift next =>
      rw [apply, shift]
      split <;> exact .refl _
  | reduce p =>
      rw [apply, reduce]
      split
      · exact .refl _
      · exact Numbering.grows_nextId (m := s.numbering) (setting.renews_reduceStack _ _ _ _).le
  | accept =>
      rw [apply, accept]
      split <;> exact .refl _
  | error | goto | ambig => exact .refl _

/-- The lookaheads of all versions are tokens. -/
def LooksAtTokens (s : ParseState) : Prop := ∀ v ∈ s.versions, ∀ t ∈ v.lookahead, t.isLeaf = true

theorem looksAtTokens_apply (hs : LooksAtTokens s) (i : Nat) (t : Subtree) (action : Action) :
    LooksAtTokens (setting.apply s i t action) := by
  have hset : ∀ {v w : Version} {s' : ParseState}, s.versions[i]? = some v →
      s'.versions = s.versions.set i w → (∀ t ∈ w.lookahead, t ∈ v.lookahead) → LooksAtTokens s' := by
    intro v w s' hv hversions hsame u hu
    rw [hversions] at hu
    rcases List.mem_or_eq_of_mem_set hu with hu | rfl
    · exact hs u hu
    · exact fun t ht => hs v (List.mem_of_getElem? hv) t (hsame t ht)
  cases action with
  | shift next =>
      rw [apply, shift]
      split
      · exact hs
      · rename_i v hv
        exact hset hv rfl fun t ht => absurd ht (Option.not_mem_none t)
  | reduce p =>
      rw [apply, reduce]
      split
      · exact hs
      · rename_i v hv
        exact hset hv rfl fun _ ht => ht
  | accept =>
      rw [apply, accept]
      split
      · exact hs
      · exact fun v hv => hs v (List.mem_of_mem_eraseIdx hv)
  | error | goto | ambig => exact hs

theorem distinct_fork (h : setting.EndsAtEof) (hs : s.Distinct first) (htokens : LooksAtTokens s)
    (hv : v.Distinct s.numbering) (ht : v.lookahead = some t) (hleaf : t.isLeaf = true)
    {actions : List Action}
    (hactions : ∀ action ∈ actions, action ∈ setting.table.actionList v.stack.state t.symbol) :
    (setting.fork v t s actions).Distinct first := by
  induction actions generalizing s with
  | nil => exact hs
  | cons action actions ih =>
      rw [fork]
      split
      · exact hs
      · obtain ⟨haction, hothers⟩ := List.forall_mem_cons.1 hactions
        have htokens : LooksAtTokens { s with versions := s.versions ++ [v] } := by
          refine List.forall_mem_append.2 ⟨htokens, List.forall_mem_singleton.2 fun t' ht' => ?_⟩
          rw [ht] at ht'
          rw [← Option.mem_some_iff.1 ht']
          exact hleaf
        have hforked : { s with versions := s.versions ++ [v] }.Distinct first :=
          ⟨hs.numbering, List.forall_mem_append.2 ⟨hs.versions, List.forall_mem_singleton.2 hv⟩,
            hs.accepted, fun _ => htokens⟩
        have hlast : { s with versions := s.versions ++ [v] }.versions[s.versions.length]?
            = some v := by simp
        exact ih (distinct_apply h hforked hlast ht haction) (looksAtTokens_apply htokens _ _ _)
          (hv.grows (grows_apply { s with versions := s.versions ++ [v] } _ _ _)) hothers

/-- A node of the old tree is shifted, waits for a reduction, or is entered. -/
theorem distinct_advanceReused (hs : s.Distinct first) (hv : s.versions[i]? = some v)
    (ht : v.lookahead = some t) (hnode : t.isLeaf = false) :
    (setting.advanceReused s i v t).Distinct first := by
  have hend : ¬ t.IsEnd := fun hend => absurd (hnode.symm.trans hend.isLeaf) Bool.false_ne_true
  have hmem := List.mem_of_getElem? hv
  have henter : ({ s with reuse := s.reuse.map ReuseCursor.stepInto }.setVersion i
      { v with lookahead := none }).Distinct first := by
    obtain ⟨hsingle, rfl⟩ : s.versions = [v] ∧ i = 0 := by
      refine ParseState.eq_singleton (Bool.eq_false_iff.2 fun hforked => ?_) hv
      rw [hs.leaves hforked v hmem t ht] at hnode
      cases hnode
    obtain ⟨cursor, hcursor, hoffset, hhead⟩ := (hs.versions v hmem).cursor t ht hnode
    obtain ⟨rest, hrest⟩ := List.head?_eq_some_iff.1 hhead
    have hentered := distinct_withCursor hs hmem hcursor (.stepInto cursor .refl)
      (ReuseCursor.left_stepInto_sublist hrest fun hpassed =>
        absurd hpassed.1 (Nat.not_lt_of_le (Nat.le_of_eq hoffset.symm)))
    have hmap : s.reuse.map ReuseCursor.stepInto = some cursor.stepInto := by
      rw [show s.reuse = some cursor from hcursor]
      rfl
    rw [hmap, ParseState.setVersion, hsingle]
    exact hentered
  rw [advanceReused]
  split
  · exact distinct_reduce hs _
  · split
    · exact (distinct_shiftVersion hs hv ht hend _ true).count _
    · exact henter
  · exact henter

end ParseSetting

end IncrementalLR
