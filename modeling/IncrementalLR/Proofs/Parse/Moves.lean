import IncrementalLR.Parse.Engine
import IncrementalLR.Proofs.Lexer.Streaming

/-!
# Moves of a version

All that an operation of a parse can do to a version, with the guards under which it does it. The
versions of a parse are those that such moves lead to from the start, and what is accepted comes from
one of them.
-/

namespace IncrementalLR

/-! ### Reading the text -/

namespace ParseSetting

variable {setting : ParseSetting} {input : Option Text.Input}

/-- Whatever a parse reads its text from, the tokens are those of the text. -/
theorem token_spec (h : ∀ x ∈ input, x.text = setting.text) (position : Nat) (mode : LexMode) :
    (setting.token input position mode).1 = setting.language.lex setting.text position mode ∧
      ∀ x ∈ (setting.token input position mode).2, x.text = setting.text := by
  cases input with
  | none => exact ⟨rfl, h⟩
  | some input =>
      have htext := h input rfl
      obtain ⟨htoken, hkept⟩ :=
        setting.language.lexer.lexFrom_spec input position mode setting.language.scanner
      rw [htext] at htoken hkept
      refine ⟨htoken, fun x hx => ?_⟩
      rw [← Option.some.inj hx]
      exact hkept

/-- So is the rest of the text. -/
theorem lengthFrom_eq (h : ∀ x ∈ input, x.text = setting.text) (position : Nat) :
    setting.lengthFrom input position
      = Length.ofBytes (setting.text.extract position setting.text.size) := by
  cases input with
  | none => rfl
  | some input =>
      rw [← h input rfl]
      exact input.remainingLength_eq position

end ParseSetting

/-! ### Moves of a cursor -/

namespace ReuseCursor

variable {c : ReuseCursor} {tree : Subtree} {rest : List Subtree}

theorem stack_eq_nil (h : c.rest = []) : c.stack = [] := by
  obtain ⟨_ | ⟨entry, above⟩⟩ := c
  · rfl
  · cases h

theorem exists_stack_eq_cons (h : c.rest = tree :: rest) : ∃ index above,
    c.stack = ⟨tree, index, c.offset⟩ :: above ∧ rest = behind index above := by
  obtain ⟨_ | ⟨entry, above⟩⟩ := c
  · cases h
  · obtain ⟨rfl, rfl⟩ := List.cons_eq_cons.1 h
    exact ⟨entry.index, above, rfl, rfl⟩

theorem advance_of_rest_eq_nil (h : c.rest = []) : c.advance = c := by
  rw [advance, stack_eq_nil h]

theorem stepInto_of_rest_eq_nil (h : c.rest = []) : c.stepInto = c := by
  rw [stepInto, descend?, stack_eq_nil h]
  exact advance_of_rest_eq_nil h

/-- A node without children is passed. -/
theorem stepInto_of_children_eq_nil (h : c.rest = tree :: rest) (hchildren : tree.children = []) :
    c.stepInto = c.advance := by
  obtain ⟨index, above, hstack, _⟩ := exists_stack_eq_cons h
  rw [stepInto, descend?, hstack]
  simp only [hchildren, List.head?_nil, Option.map_none, Option.getD_none]

theorem offset_next (index offset : Nat) (above : List ReuseEntry) :
    ReuseCursor.rest ⟨next index offset above⟩ = [] ∨
      ReuseCursor.offset ⟨next index offset above⟩ = offset := by
  induction above generalizing index with
  | nil => exact .inl rfl
  | cons parent above ih =>
      rw [next]
      cases parent.tree.children[index + 1]? with
      | none => exact ih parent.index
      | some tree => exact .inr rfl

/-- The next node starts where the one that is passed ends. -/
theorem offset_advance (h : c.rest = tree :: rest) :
    rest = [] ∨ c.advance.offset = c.offset + tree.total.bytes := by
  have htail : c.advance.rest = rest := by rw [rest_advance, h, List.tail_cons]
  obtain ⟨index, above, hstack, _⟩ := exists_stack_eq_cons h
  have hadvance : c.advance = ⟨next index (c.offset + tree.total.bytes) above⟩ := by
    rw [advance, hstack]
  rw [← htail, hadvance]
  exact offset_next index (c.offset + tree.total.bytes) above

/-- The first child starts where its parent does. -/
theorem offset_stepInto (h : c.rest = tree :: rest) (hchildren : tree.children ≠ []) :
    c.stepInto.offset = c.offset := by
  obtain ⟨index, above, hstack, _⟩ := exists_stack_eq_cons h
  obtain ⟨first, more, hfirst⟩ := List.exists_cons_of_ne_nil hchildren
  rw [stepInto, descend?, hstack]
  simp only [hfirst, List.head?_cons, Option.map_some, Option.getD_some]
  rfl

/-- What a step into the node in front of a cursor can do. -/
theorem stepInto_cases (c : ReuseCursor) : (c.rest = [] ∧ c.stepInto = c) ∨
    (∃ tree rest, c.rest = tree :: rest ∧ tree.children = [] ∧ c.stepInto = c.advance) ∨
    ∃ tree rest, c.rest = tree :: rest ∧ tree.children ≠ [] ∧
      c.stepInto.rest = tree.children ++ rest ∧ c.stepInto.offset = c.offset := by
  cases hrest : c.rest with
  | nil => exact .inl ⟨rfl, stepInto_of_rest_eq_nil hrest⟩
  | cons tree rest =>
      refine .inr ?_
      by_cases hchildren : tree.children = []
      · exact .inl ⟨tree, rest, rfl, hchildren, stepInto_of_children_eq_nil hrest hchildren⟩
      · refine .inr ⟨tree, rest, rfl, hchildren, ?_, offset_stepInto hrest hchildren⟩
        rw [rest_stepInto, hrest]

end ReuseCursor

/-- Moves of a cursor over an old tree. -/
inductive ReuseCursor.Reaches (c : ReuseCursor) : ReuseCursor → Prop
  | refl : Reaches c c
  | advance (d : ReuseCursor) (h : Reaches c d) : Reaches c d.advance
  | stepInto (d : ReuseCursor) (h : Reaches c d) : Reaches c d.stepInto

theorem ReuseCursor.Reaches.trans {c d e : ReuseCursor} (h : c.Reaches d) (h' : d.Reaches e) :
    c.Reaches e := by
  induction h' with
  | refl => exact h
  | advance e _ ih => exact .advance e ih
  | stepInto e _ ih => exact .stepInto e ih

/-- What holds of the subtrees in front of a cursor and goes from nodes to their children holds wherever
the cursor is moved. -/
theorem ReuseCursor.Reaches.forall_mem {P : Subtree → Prop} {c d : ReuseCursor} (h : c.Reaches d)
    (hchild : ∀ t, P t → ∀ child ∈ t.children, P child) (hc : ∀ t ∈ c.rest, P t) :
    ∀ t ∈ d.rest, P t := by
  induction h with
  | refl => exact hc
  | advance d _ ih =>
      rw [rest_advance]
      exact fun t ht => ih t (List.mem_of_mem_tail ht)
  | stepInto d _ ih =>
      rw [rest_stepInto]
      cases hrest : d.rest with
      | nil => exact List.forall_mem_nil P
      | cons t rest =>
          rw [hrest] at ih
          obtain ⟨ht, hrest⟩ := List.forall_mem_cons.1 ih
          exact List.forall_mem_append.2 ⟨hchild t ht, hrest⟩

/-- A cursor stands in front of the root of an old tree, or of subtrees below it. -/
theorem ReuseCursor.Reaches.eq_root_or_forall_mem {P : Subtree → Prop} {root : Subtree}
    {c : ReuseCursor} (h : (ofRoot root).Reaches c)
    (hchild : ∀ t, P t → ∀ child ∈ t.children, P child) (hroot : ∀ t ∈ root.children, P t) :
    c.rest = [root] ∨ ∀ t ∈ c.rest, P t := by
  induction h with
  | refl => exact .inl rfl
  | advance d _ ih =>
      refine .inr ?_
      rw [rest_advance]
      rcases ih with hrest | hall
      · rw [hrest]
        exact List.forall_mem_nil P
      · exact fun t ht => hall t (List.mem_of_mem_tail ht)
  | stepInto d _ ih =>
      refine .inr ?_
      rcases ih with hrest | hall
      · rw [rest_stepInto, hrest]
        simpa using hroot
      · exact (Reaches.stepInto d .refl).forall_mem hchild hall

/-- A subtree that is taken stands in front of the cursor, at the place asked for. -/
theorem ReuseCursor.take_spec (c : ReuseCursor) (t : Table) (position : Nat) (state : StateId) :
    c.Reaches (c.take t position state).2 ∧
      ∀ tree, (c.take t position state).1 = some tree →
        (c.take t position state).2.rest.head? = some tree ∧
          (c.take t position state).2.offset = position ∧ accepts t state tree = true := by
  fun_induction ReuseCursor.take c t position state with
  | case1 c h => exact ⟨.refl, by simp⟩
  | case2 c entry above h _ => exact ⟨.refl, by simp⟩
  | case3 c entry above h _ _ _ ih => exact ⟨(Reaches.advance c .refl).trans ih.1, ih.2⟩
  | case4 c entry above h _ _ _ ih => exact ⟨(Reaches.stepInto c .refl).trans ih.1, ih.2⟩
  | case5 c entry above h hle hge haccepts =>
      refine ⟨.refl, ?_⟩
      intro found hfound
      cases hfound
      refine ⟨by rw [ReuseCursor.rest, h]; rfl, ?_, haccepts⟩
      rw [ReuseCursor.offset, h]
      exact Nat.le_antisymm (Nat.le_of_not_gt hle) (Nat.le_of_not_lt hge)
  | case6 c entry above h _ _ _ ih => exact ⟨(Reaches.stepInto c .refl).trans ih.1, ih.2⟩

namespace ParseSetting

variable (setting : ParseSetting)

/-- The leaf of the token that the lexer gives at a place in a lex mode. -/
def Lexes (position : Nat) (mode : LexMode) (tree : Subtree) : Prop :=
  ∃ id, tree = Subtree.ofToken setting.table id (setting.language.lex setting.text position mode)

/-- Tokens one behind the other, each lexed as an error. -/
inductive LexesAll : Length → List Subtree → Prop
  | nil (position : Length) : LexesAll position []
  | cons (position : Length) (tree : Subtree) (rest : List Subtree)
      (htree : setting.Lexes position.bytes LexMode.error tree)
      (hrest : LexesAll (position + tree.total) rest) : LexesAll position (tree :: rest)

/-- A version that has taken subtrees off and passed tokens, all of them as skipped text. -/
def skipVersion (v : Version) (tokens : List Subtree) (popped skipped id : Nat)
    (relexed : Subtree) : Version :=
  let taken := ((v.stack.frames.take popped).map (·.tree)).reverse
  let passed := tokens.take skipped
  let resumed : Stack := { v.stack with frames := v.stack.frames.drop popped }
  let trees := taken ++ passed
  let stack :=
    if trees.isEmpty then resumed
    else resumed.push resumed.state (Subtree.ofSkipped setting.table id trees) false
  ⟨stack, passed.foldl (fun p token => p + token.total) v.position, some relexed⟩

/-- The symbols by which a version acts: that of a token that is its lookahead, that of the first leaf
of a reused node, and those of tokens that may be put in. -/
inductive ActsOn (v : Version) : Symbol → Prop
  | token (lookahead : Subtree) (hlookahead : v.lookahead = some lookahead)
      (hleaf : lookahead.isLeaf = true) : ActsOn v lookahead.symbol
  | node (lookahead : Subtree) (hlookahead : v.lookahead = some lookahead)
      (hnode : lookahead.isLeaf = false) : ActsOn v lookahead.head.firstLeaf.1
  | missing (s : Symbol) (hs : s ∈ Recovery.insertable setting.table) : ActsOn v s

/-- What one operation can do to a version. Subtrees are reused from the places to which the cursor
`old` can be moved. -/
inductive Moves (old : Option ReuseCursor) : Version → Version → Prop
  | lex (v : Version) (mode : LexMode) (tree : Subtree)
      (hlex : setting.Lexes v.position.bytes mode tree) :
      Moves old v { v with lookahead := some tree }
  | reuse (v : Version) (start cursor : ReuseCursor) (tree : Subtree)
      (hstart : old = some start) (hcursor : start.Reaches cursor)
      (htree : cursor.rest.head? = some tree) (hoffset : cursor.offset = v.position.bytes)
      (haccepts : ReuseCursor.accepts setting.table v.stack.state tree = true) :
      Moves old v { v with lookahead := some tree }
  | enter (v : Version) (lookahead : Subtree) (hlookahead : v.lookahead = some lookahead)
      (hnode : lookahead.isLeaf = false) : Moves old v { v with lookahead := none }
  | reduce (v : Version) (s : Symbol) (p : ProductionId) (forked : Bool) (id : Nat)
      (hs : setting.ActsOn v s)
      (haction : .reduce p ∈ setting.table.actionList v.stack.state s) :
      Moves old v { v with stack := (setting.reduceStack forked p id v.stack).1 }
  | shift (v : Version) (lookahead : Subtree) (next : StateId)
      (hlookahead : v.lookahead = some lookahead) (hleaf : lookahead.isLeaf = true)
      (haction : .shift next ∈ setting.table.actionList v.stack.state lookahead.symbol) :
      Moves old v (shiftVersion v next lookahead false)
  | shiftExtra (v : Version) (lookahead : Subtree) (hlookahead : v.lookahead = some lookahead)
      (hleaf : lookahead.isLeaf = true) (hextra : lookahead.flags.extra = true)
      (hnone : setting.table.actionList v.stack.state lookahead.symbol = []) :
      Moves old v (shiftVersion v v.stack.state lookahead false)
  | shiftReused (v : Version) (lookahead : Subtree) (target next : StateId)
      (hlookahead : v.lookahead = some lookahead) (hnode : lookahead.isLeaf = false)
      (haction : setting.table.actionList v.stack.state lookahead.head.firstLeaf.1 = [.shift target])
      (hnext : setting.table.nextState? v.stack.state lookahead.symbol = some next) :
      Moves old v (shiftVersion v next lookahead true)
  | breakPending (v : Version) (lookahead : Subtree) (hlookahead : v.lookahead = some lookahead)
      (hleaf : lookahead.isLeaf = true)
      (hnone : setting.table.actionList v.stack.state lookahead.symbol = []) :
      Moves old v { v with stack := (breakPending setting.table v.stack).2 }
  | missing (v : Version) (s : Symbol) (next : StateId) (id : Nat)
      (hs : s ∈ Recovery.insertable setting.table)
      (haction : (setting.table.actionList v.stack.state s).head? = some (.shift next)) :
      Moves old v { v with
        stack := v.stack.push next
          (Subtree.ofMissing setting.table id s (setting.table.lexMode v.stack.state)) false }
  | skip (v : Version) (lookahead relexed : Subtree) (more : List Subtree) (popped skipped id : Nat)
      (mode : LexMode) (hlookahead : v.lookahead = some lookahead)
      (hleaf : lookahead.isLeaf = true)
      (hmore : setting.LexesAll (v.position + lookahead.total) more)
      (hrelexed : setting.Lexes
        (setting.skipVersion v (lookahead :: more) popped skipped id relexed).position.bytes mode
        relexed) :
      Moves old v (setting.skipVersion v (lookahead :: more) popped skipped id relexed)
  | skipLookahead (v : Version) (lookahead : Subtree) (id : Nat)
      (hlookahead : v.lookahead = some lookahead) (hleaf : lookahead.isLeaf = true) :
      Moves old v {
        stack := v.stack.push v.stack.state (Subtree.ofSkipped setting.table id [lookahead]) false
        position := v.position + lookahead.total
        lookahead := none }

/-- The version in front of the text. -/
def startVersion : Version := ⟨Stack.ofBase setting.table.startState, Length.zero, none⟩

/-- The versions that moves lead to. -/
inductive Reached (old : Option ReuseCursor) : Version → Prop
  | start : Reached old setting.startVersion
  | move (v v' : Version) (h : Reached old v) (hmove : setting.Moves old v v') : Reached old v'

/-- A version is accepted on its lookahead, or closed at the end of the text. -/
structure AcceptedFrom (v : Version) (a : Accepted) : Prop where
  trees : a.trees = v.stack.trees
  lookahead : ∃ lookahead, v.lookahead = some lookahead ∧ a.trailing = lookahead.padding ∧
    lookahead.isLeaf = true ∧ (.accept ∈ setting.table.actionList v.stack.state lookahead.symbol ∨
      lookahead.symbol = Symbol.eof)

/-- What moves keep of versions, and what is known of those that are accepted. -/
structure Invariant (old : Option ReuseCursor) where
  Holds : Version → Prop
  Accepts : Accepted → Prop
  moves : ∀ {v v' : Version}, Holds v → setting.Moves old v v' → Holds v'
  accepts : ∀ {v : Version} {a : Accepted}, Holds v → setting.AcceptedFrom v a → Accepts a

/-- Versions are those that moves lead to from the start. -/
def reaching (old : Option ReuseCursor) : setting.Invariant old where
  Holds := setting.Reached old
  Accepts a := ∃ v, setting.Reached old v ∧ setting.AcceptedFrom v a
  moves hreached hmove := .move _ _ hreached hmove
  accepts hreached haccepted := ⟨_, hreached, haccepted⟩

end ParseSetting

/-- The invariant holds for every version of a state, and so on for what else is in it. As long as
versions are allowed at all, one of them is left or was accepted. -/
structure ParseState.Sound {setting : ParseSetting} {old : Option ReuseCursor}
    (inv : setting.Invariant old) (s : ParseState) : Prop where
  versions : ∀ v ∈ s.versions, inv.Holds v
  accepted : ∀ a ∈ s.accepted, inv.Accepts a
  cache : ∀ c ∈ s.cache, setting.Lexes c.position c.mode c.tree
  reuse : ∀ c ∈ s.reuse, ∃ start, old = some start ∧ start.Reaches c
  input : ∀ x ∈ s.input, x.text = setting.text
  alive : 0 < setting.options.maxVersions → s.versions ≠ [] ∨ s.accepted ≠ []

namespace ParseState

variable {setting : ParseSetting} {old : Option ReuseCursor} {inv : setting.Invariant old}
  {s : ParseState} {i : Nat} {v : Version}

theorem Sound.of_getElem? (h : s.Sound inv) (hv : s.versions[i]? = some v) : inv.Holds v :=
  h.versions v (List.mem_of_getElem? hv)

theorem Sound.setVersion (h : s.Sound inv) (hv : inv.Holds v) : (s.setVersion i v).Sound inv := by
  refine { h with versions := fun w hw => ?_, alive := fun hmax => ?_ }
  · rcases List.mem_or_eq_of_mem_set hw with hw | rfl
    · exact h.versions w hw
    · exact hv
  · rcases h.alive hmax with hne | hne
    · exact .inl (mt (List.set_eq_nil_iff i v).1 hne)
    · exact .inr hne

theorem Sound.removeVersion (h : s.Sound inv)
    (hothers : s.isForked = true ∨ s.accepted ≠ []) : (s.removeVersion i).Sound inv := by
  refine { h with
    versions := fun w hw => h.versions w (List.mem_of_mem_eraseIdx hw), alive := fun _ => ?_ }
  rcases hothers with hforked | hne
  · have hlt : 1 < s.versions.length := of_decide_eq_true hforked
    have hle : s.versions.length - 1 ≤ (s.versions.eraseIdx i).length := by
      rw [List.length_eraseIdx]
      split <;> omega
    refine .inl (List.ne_nil_of_length_pos ?_)
    exact Nat.lt_of_lt_of_le (Nat.sub_pos_of_lt hlt) hle
  · exact .inr hne

theorem Sound.count (h : s.Sound inv) (f : ParseStats → ParseStats) :
    (s.count f).Sound inv :=
  ⟨h.versions, h.accepted, h.cache, h.reuse, h.input, h.alive⟩

theorem Sound.withNextId (h : s.Sound inv) (id : Nat) :
    { s with nextId := id }.Sound inv :=
  ⟨h.versions, h.accepted, h.cache, h.reuse, h.input, h.alive⟩

theorem getElem?_setVersion (hv : s.versions[i]? = some v) (w : Version) :
    (s.setVersion i w).versions[i]? = some w := by
  obtain ⟨hlt, _⟩ := List.getElem?_eq_some_iff.1 hv
  exact List.getElem?_set_self hlt

theorem getElem?_setVersion_of_ne {j : Nat} (hij : i ≠ j) (w : Version) :
    (s.setVersion i w).versions[j]? = s.versions[j]? :=
  List.getElem?_set_ne hij

/-- Where versions are not forked there is one at most. -/
theorem eq_singleton (hforked : s.isForked = false) (hv : s.versions[i]? = some v) :
    s.versions = [v] ∧ i = 0 := by
  have hlength : s.versions.length ≤ 1 := Nat.le_of_not_lt (of_decide_eq_false hforked)
  obtain ⟨hlt, _⟩ := List.getElem?_eq_some_iff.1 hv
  obtain rfl : i = 0 := by omega
  cases hversions : s.versions with
  | nil =>
      rw [hversions] at hv
      cases hv
  | cons w rest =>
      rw [hversions] at hv hlength
      cases hv
      rw [List.length_cons] at hlength
      rw [List.length_eq_zero_iff.1 (by omega : rest.length = 0)]
      exact ⟨rfl, rfl⟩

end ParseState

namespace ParseSetting

variable {setting : ParseSetting} {old : Option ReuseCursor} {inv : setting.Invariant old}
  {s : ParseState} {i : Nat} {v : Version}

open ParseState

/-! ### Tokens -/

theorem lex_spec (h : s.Sound inv) (position : Nat) (mode : LexMode) :
    setting.Lexes position mode (setting.lex s position mode).1 ∧
      (setting.lex s position mode).2.Sound inv ∧
      (setting.lex s position mode).2.versions = s.versions := by
  rw [ParseSetting.lex]
  cases hcached : s.cache.bind fun c =>
      if c.position = position ∧ c.mode = mode then some c.tree else none with
  | some tree =>
      obtain ⟨c, hc, hsome⟩ := Option.bind_eq_some_iff.1 hcached
      simp only [Option.ite_none_right_eq_some, Option.some.injEq] at hsome
      obtain ⟨⟨rfl, rfl⟩, rfl⟩ := hsome
      exact ⟨h.cache c hc, h, rfl⟩
  | none =>
      obtain ⟨htoken, hinput⟩ := token_spec h.input position mode
      have hlexes : setting.Lexes position mode
          (Subtree.ofToken setting.table s.nextId (setting.token s.input position mode).1) :=
        ⟨s.nextId, congrArg (Subtree.ofToken setting.table s.nextId) htoken⟩
      refine ⟨hlexes, ⟨h.versions, h.accepted, fun c hc => ?_, h.reuse, hinput, h.alive⟩, rfl⟩
      rw [Option.mem_some_iff] at hc
      rw [← hc]
      exact hlexes

theorem nextToken_spec (h : s.Sound inv) (v : Version) :
    setting.Moves old v { v with lookahead := some (setting.nextToken s v).1 } ∧
      (setting.nextToken s v).2.Sound inv ∧
      (setting.nextToken s v).2.versions = s.versions := by
  have hlex : ∀ s : ParseState, s.Sound inv →
      setting.Moves old v { v with lookahead := some (setting.lex s v.position.bytes
        (setting.table.lexMode v.stack.state)).1 } ∧
      (setting.lex s v.position.bytes (setting.table.lexMode v.stack.state)).2.Sound inv ∧
      (setting.lex s v.position.bytes (setting.table.lexMode v.stack.state)).2.versions
        = s.versions := by
    intro s h
    obtain ⟨htree, hsound, hversions⟩ := lex_spec h v.position.bytes
      (setting.table.lexMode v.stack.state)
    exact ⟨.lex v _ _ htree, hsound, hversions⟩
  rw [nextToken]
  cases hreuse : s.reuse with
  | none => exact hlex s h
  | some cursor =>
      by_cases hforked : s.isForked = true
      · simp only [if_pos hforked]
        exact hlex s h
      · simp only [if_neg hforked]
        obtain ⟨start, hstart, hreach⟩ := h.reuse cursor hreuse
        obtain ⟨hmoved, htaken⟩ :=
          cursor.take_spec setting.table v.position.bytes v.stack.state
        have hsound : ParseState.Sound inv { s with
            reuse := some (cursor.take setting.table v.position.bytes v.stack.state).2 } := by
          refine ⟨h.versions, h.accepted, h.cache, ?_, h.input, h.alive⟩
          intro c hc
          rw [Option.mem_some_iff] at hc
          rw [← hc]
          exact ⟨start, hstart, hreach.trans hmoved⟩
        cases htake : (cursor.take setting.table v.position.bytes v.stack.state).1 with
        | none => exact hlex _ hsound
        | some tree =>
            obtain ⟨hhead, hoffset, haccepts⟩ := htaken tree htake
            have hmove := Moves.reuse v start _ tree hstart (hreach.trans hmoved) hhead hoffset
              haccepts
            simp only
            by_cases hleaf : tree.isLeaf = true
            · rw [if_pos hleaf]
              exact ⟨hmove, hsound.count _, rfl⟩
            · rw [if_neg hleaf]
              exact ⟨hmove, hsound, rfl⟩

theorem upcoming_spec (h : s.Sound inv) (position : Length) (last : Subtree) (limit : Nat) :
    setting.LexesAll position (setting.upcoming s position last limit).1 ∧
      (setting.upcoming s position last limit).2.Sound inv ∧
      (setting.upcoming s position last limit).2.versions = s.versions := by
  induction limit generalizing s position last with
  | zero => exact ⟨.nil position, h, rfl⟩
  | succ limit ih =>
      rw [upcoming]
      split
      · exact ⟨.nil position, h, rfl⟩
      · obtain ⟨htoken, hsound, hversions⟩ := lex_spec h position.bytes LexMode.error
        obtain ⟨hrest, hsound', hversions'⟩ := ih hsound
          (position + (setting.lex s position.bytes LexMode.error).1.total)
          (setting.lex s position.bytes LexMode.error).1
        exact ⟨.cons position _ _ htoken hrest, hsound', hversions'.trans hversions⟩

/-! ### Actions -/

theorem sound_reduce (h : s.Sound inv) (hv : s.versions[i]? = some v) {x : Symbol}
    (hx : setting.ActsOn v x) {p : ProductionId}
    (haction : .reduce p ∈ setting.table.actionList v.stack.state x) :
    (setting.reduce s i p).Sound inv := by
  rw [reduce, hv]
  exact ((h.withNextId _).setVersion
    (inv.moves (h.of_getElem? hv) (.reduce v x p _ _ hx haction))).count _

theorem sound_shift (h : s.Sound inv) (hv : s.versions[i]? = some v) {next : StateId}
    {tree : Subtree} (hmove : setting.Moves old v (shiftVersion v next tree false)) :
    (shift s i next tree).Sound inv := by
  rw [shift, hv]
  exact (h.setVersion (inv.moves (h.of_getElem? hv) hmove)).count _

theorem sound_accept (h : s.Sound inv) (hv : s.versions[i]? = some v) {lookahead : Subtree}
    (hlookahead : v.lookahead = some lookahead) (hleaf : lookahead.isLeaf = true)
    (haction : .accept ∈ setting.table.actionList v.stack.state lookahead.symbol ∨
      lookahead.symbol = Symbol.eof) : (accept s i).Sound inv := by
  rw [accept, hv]
  refine { h with
    versions := fun w hw => h.versions w (List.mem_of_mem_eraseIdx hw)
    accepted := fun a ha => ?_
    alive := fun _ => .inr (List.append_ne_nil_of_right_ne_nil _ (List.cons_ne_nil _ _)) }
  rcases List.mem_append.1 ha with ha | ha
  · exact h.accepted a ha
  · rw [List.mem_singleton.1 ha]
    exact inv.accepts (h.of_getElem? hv)
      ⟨rfl, lookahead, hlookahead, by simp [hlookahead], hleaf, haction⟩

theorem sound_apply (h : s.Sound inv) (hv : s.versions[i]? = some v) {lookahead : Subtree}
    (hlookahead : v.lookahead = some lookahead) (hleaf : lookahead.isLeaf = true) {action : Action}
    (haction : action ∈ setting.table.actionList v.stack.state lookahead.symbol) :
    (setting.apply s i lookahead action).Sound inv := by
  cases action with
  | shift next => exact sound_shift h hv (.shift v lookahead next hlookahead hleaf haction)
  | reduce p => exact sound_reduce h hv (.token lookahead hlookahead hleaf) haction
  | accept => exact sound_accept h hv hlookahead hleaf (.inl haction)
  | error => exact h
  | goto => exact h
  | ambig => exact h

/-- An action on a version leaves those in front of it as they are. -/
theorem getElem?_apply {j : Nat} (hj : j < i) (lookahead : Subtree) (action : Action) :
    (setting.apply s i lookahead action).versions[j]? = s.versions[j]? := by
  have hne : i ≠ j := Nat.ne_of_gt hj
  cases action with
  | shift next =>
      rw [apply, shift]
      split
      · rfl
      · exact getElem?_setVersion_of_ne hne _
  | reduce p =>
      rw [apply, reduce]
      split
      · rfl
      · exact getElem?_setVersion_of_ne hne _
  | accept =>
      rw [apply, accept]
      split
      · rfl
      · exact List.getElem?_eraseIdx_of_lt hj
  | error => rfl
  | goto => rfl
  | ambig => rfl

theorem fork_spec (h : s.Sound inv) (hholds : inv.Holds v) {lookahead : Subtree}
    (hlookahead : v.lookahead = some lookahead) (hleaf : lookahead.isLeaf = true)
    {actions : List Action}
    (hactions : ∀ action ∈ actions, action ∈ setting.table.actionList v.stack.state lookahead.symbol)
    (hi : i < s.versions.length) :
    (setting.fork v lookahead s actions).Sound inv ∧
      (setting.fork v lookahead s actions).versions[i]? = s.versions[i]? := by
  induction actions generalizing s with
  | nil => exact ⟨h, rfl⟩
  | cons action actions ih =>
      rw [fork]
      split
      · exact ⟨h, rfl⟩
      · have hforked : { s with versions := s.versions ++ [v] }.Sound inv := by
          refine { h with
            versions := fun w hw => ?_
            alive := fun _ => .inl (List.append_ne_nil_of_right_ne_nil _ (List.cons_ne_nil _ _)) }
          rcases List.mem_append.1 hw with hw | hw
          · exact h.versions w hw
          · rw [List.mem_singleton.1 hw]
            exact hholds
        have hlast : { s with versions := s.versions ++ [v] }.versions[s.versions.length]?
            = some v := by simp
        have hsound := sound_apply hforked hlast hlookahead hleaf
          (hactions action List.mem_cons_self)
        have hkept : (setting.apply { s with versions := s.versions ++ [v] } s.versions.length
            lookahead action).versions[i]? = s.versions[i]? := by
          rw [getElem?_apply hi]
          exact List.getElem?_append_left hi
        have hlt : i < (setting.apply { s with versions := s.versions ++ [v] } s.versions.length
            lookahead action).versions.length := by
          have hsome := List.getElem?_eq_getElem hi
          rw [← hkept] at hsome
          exact (List.getElem?_eq_some_iff.1 hsome).1
        obtain ⟨hsound', hkept'⟩ := ih hsound
          (fun other hother => hactions other (List.mem_cons_of_mem action hother)) hlt
        exact ⟨hsound', hkept'.trans hkept⟩

end ParseSetting

end IncrementalLR
