import IncrementalLR.Parse.State

/-!
# Parsing

One operation at a time is done on the version that is furthest behind: a token or an old subtree is
fetched, a reduction is made, a subtree is shifted, or an error is recovered from. When no version is
left the best accepted one becomes the tree. A parse that is stopped makes a tree of what it has, with
the rest of the text as skipped text at its end.
-/

namespace IncrementalLR

namespace ParseSetting

/-! ## Tokens -/

/-- The token at a place in a lex mode, and what is read from then on. -/
def token (setting : ParseSetting) (input : Option Text.Input) (position : Nat) (mode : LexMode) :
    Lexed × Option Text.Input :=
  match input with
  | none => (setting.language.lex setting.text position mode, none)
  | some input =>
    let (token, input) := setting.language.lexFrom input position mode
    (token, some input)

/-- The length of the text from a place on. -/
def lengthFrom (setting : ParseSetting) (input : Option Text.Input) (position : Nat) : Length :=
  match input with
  | none => Length.ofBytes (setting.text.extract position setting.text.size)
  | some input => (input.remainingLength position).1

/-- The token at a place in a lex mode, as a leaf. -/
def lex (setting : ParseSetting) (s : ParseState) (position : Nat) (mode : LexMode) :
    Subtree × ParseState :=
  let cached := s.cache.bind fun c =>
    if c.position = position ∧ c.mode = mode then some c.tree else none
  match cached with
  | some tree => (tree, s)
  | none =>
    let (token, input) := setting.token s.input position mode
    let tree := Subtree.ofToken setting.table s.nextId token
    (tree, { s with
      input := input
      cache := some ⟨position, mode, tree⟩
      stats := { s.stats with tokens := s.stats.tokens + 1 }
      nextId := s.nextId + 1 })

/-- What comes next for a version: a subtree of the old tree if it is the only version and there is
one, or else a token. -/
def nextToken (setting : ParseSetting) (s : ParseState) (v : Version) : Subtree × ParseState :=
  let state := v.stack.state
  let position := v.position.bytes
  let (reused, s) :=
    match s.reuse with
    | some cursor =>
      if s.isForked then (none, s)
      else
        let (tree, cursor) := cursor.take setting.table position state
        (tree, { s with reuse := some cursor })
    | none => (none, s)
  match reused with
  | some tree =>
    (tree, if tree.isLeaf then s.count fun c => { c with reused := c.reused + 1 } else s)
  | none => setting.lex s position (setting.table.lexMode state)

/-- The lookahead of a version, or what comes next for it if it has none. -/
def fetch (setting : ParseSetting) (s : ParseState) (v : Version) : Subtree × ParseState :=
  match v.lookahead with
  | some tree => (tree, s)
  | none => setting.nextToken s v

/-! ## Actions -/

/-- The stack after a reduction, and the next free number. The trees on top that are no part of the
production stay on top of the new node. Without a state for the new node it becomes skipped text. -/
def reduceStack (setting : ParseSetting) (forked : Bool) (p : ProductionId) (id : Nat)
    (stack : Stack) : Stack × Nat :=
  let table := setting.table
  let info := table.production p
  let fragile := forked || table.isFragile stack.state p
  let (trailing, rest) := stack.popTrailing
  let (children, below) := rest.popStructural info.rhs.size
  let (children, id) :=
    Subtree.balanceWhere table setting.bases (·.symbol != info.lhs) id children
  let node := Subtree.interior table id info.lhs children (some p) fragile
  match table.goto? below.state info.lhs with
  | some next => ((below.push next node false).pushAll next trailing, id + 1)
  | none =>
    let skipped := Subtree.ofSkipped table (id + 1) (node :: trailing)
    (below.push below.state skipped false, id + 2)

def reduce (setting : ParseSetting) (s : ParseState) (i : Nat) (p : ProductionId) : ParseState :=
  match s.versions[i]? with
  | none => s
  | some v =>
    let (stack, next) := setting.reduceStack s.isForked p s.nextId v.stack
    ({ s with nextId := next }.setVersion i { v with stack := stack }).count fun c =>
      { c with reductions := c.reductions + 1 }

/-- A version with a subtree shifted. -/
def shiftVersion (v : Version) (state : StateId) (tree : Subtree) (pending : Bool) : Version :=
  { stack := v.stack.push state tree pending
    position := v.position + tree.total
    lookahead := none }

def shift (s : ParseState) (i : Nat) (state : StateId) (tree : Subtree) : ParseState :=
  match s.versions[i]? with
  | none => s
  | some v =>
    (s.setVersion i (shiftVersion v state tree false)).count fun c =>
      { c with shifts := c.shifts + 1 }

/-- Takes a version out as accepted. -/
def accept (s : ParseState) (i : Nat) : ParseState :=
  match s.versions[i]? with
  | none => s
  | some v =>
    let accepted : Accepted := {
      trees := v.stack.trees
      trailing := (v.lookahead.map (·.padding)).getD Length.zero
      errorCost := v.stack.errorCost
      dynamicPrecedence := v.stack.dynamicPrecedence }
    { s.removeVersion i with accepted := s.accepted ++ [accepted] }

def apply (setting : ParseSetting) (s : ParseState) (i : Nat) (lookahead : Subtree) :
    Action → ParseState
  | .shift next => shift s i next lookahead
  | .reduce p => setting.reduce s i p
  | .accept => accept s i
  | .error | .goto _ | .ambig _ => s

/-- Applies each action to a copy of a version, as long as there may be more versions. -/
def fork (setting : ParseSetting) (v : Version) (lookahead : Subtree) (s : ParseState) :
    List Action → ParseState
  | [] => s
  | action :: rest =>
    if s.versions.length ≥ setting.options.maxVersions then s
    else
      let forked := { s with versions := s.versions ++ [v] }
      setting.fork v lookahead (setting.apply forked s.versions.length lookahead action) rest

/-! ## Recovery -/

/-- The children of a pending node with the states behind them, if each of them has one. -/
def childStates? (table : Table) (state : StateId) : List Subtree → Option (List (StateId × Subtree))
  | [] => some []
  | child :: rest =>
    if child.isStructural then
      match table.nextState? state child.symbol with
      | none => none
      | some next => (childStates? table next rest).map ((next, child) :: ·)
    else (childStates? table state rest).map ((state, child) :: ·)

theorem map_snd_of_childStates? {table : Table} {state : StateId} {children : List Subtree}
    {pushes : List (StateId × Subtree)} (h : childStates? table state children = some pushes) :
    pushes.map (·.2) = children := by
  fun_induction childStates? table state children generalizing pushes with
  | case1 => simp_all
  | case2 => simp at h
  | case3 state child rest _ next _ ih =>
    obtain ⟨tail, htail, rfl⟩ := Option.map_eq_some_iff.1 h
    simp [ih htail]
  | case4 state child rest _ ih =>
    obtain ⟨tail, htail, rfl⟩ := Option.map_eq_some_iff.1 h
    simp [ih htail]

/-- Pushes children with their states. They are pending in turn unless they are leaves. -/
def pushPending (stack : Stack) (pushes : List (StateId × Subtree)) : Stack :=
  pushes.foldl (fun stack (state, child) => stack.push state child !child.isLeaf) stack

theorem nodeCountAll_pushPending (stack : Stack) (pushes : List (StateId × Subtree)) :
    Subtree.nodeCountAll ((pushPending stack pushes).frames.map (·.tree)) =
      Subtree.nodeCountAll (pushes.map (·.2)) +
        Subtree.nodeCountAll (stack.frames.map (·.tree)) := by
  induction pushes generalizing stack with
  | nil => simp [pushPending, Subtree.nodeCountAll]
  | cons push rest ih =>
    have := ih (stack.push push.1 push.2 !push.2.isLeaf)
    simp only [pushPending, List.foldl_cons] at this ⊢
    rw [this]
    simp only [Stack.push, List.map_cons, Subtree.nodeCountAll]
    omega

/-- Replaces pending nodes on top of a stack by their children. A node whose children do not all have
a state stays and is no longer pending. Tells whether any node was replaced. -/
def breakPending (table : Table) (stack : Stack) : Bool × Stack :=
  match _hframes : stack.frames with
  | [] => (false, stack)
  | top :: below =>
    if top.pending then
      let rest : Stack := { stack with frames := below }
      match _hpushes : childStates? table rest.state top.tree.children with
      | none =>
        let state := (table.nextState? rest.state top.tree.symbol).getD rest.state
        (false, rest.push state top.tree false)
      | some pushes => (true, (breakPending table (pushPending rest pushes)).2)
    else (false, stack)
  termination_by Subtree.nodeCountAll (stack.frames.map (·.tree))
  decreasing_by
    rw [nodeCountAll_pushPending, map_snd_of_childStates? _hpushes, _hframes]
    simp only [List.map_cons, Subtree.nodeCountAll, Subtree.nodeCount_eq top.tree]
    omega

/-- A way out of an error. -/
inductive Plan where
  /-- put in symbols, after which this state is reached -/
  | insert (symbols : List Symbol) (state : StateId)
  /-- take subtrees off the stack and skip tokens -/
  | skip (popped skipped : Nat)
  deriving DecidableEq, Repr, Inhabited

/-- The plan to put in missing tokens. -/
def insertPlans (setting : ParseSetting) (stack : Stack) (lookahead : Subtree) :
    List (Cost × Plan) :=
  if lookahead.symbol == Symbol.error then []
  else
    match Recovery.missingTokens setting.table stack.structuralStates lookahead.symbol
        setting.options.maxMissingTokens with
    | none => []
    | some insertion =>
      let cost := setting.strategy.cost { missing := insertion.symbols.length }
      if cost ≤ setting.options.maxRecoveryCost then
        [(cost, .insert insertion.symbols
          (insertion.states.head?.getD setting.table.startState))]
      else []

/-- At most so many tokens behind a token, up to the end of the text, lexed as errors. -/
def upcoming (setting : ParseSetting) (s : ParseState) (position : Length) (last : Subtree) :
    Nat → List Subtree × ParseState
  | 0 => ([], s)
  | limit + 1 =>
    if last.symbol == Symbol.eof then ([], s)
    else
      let (token, s) := setting.lex s position.bytes LexMode.error
      let (rest, s) := setting.upcoming s (position + token.total) token limit
      (token :: rest, s)

/-- The plans to resume at one of the tokens with these states, after `popped` subtrees that cover
`covered` were taken off. The first of the tokens is the one behind `skipped` others, which cover
`passed`. -/
def resumePlans (setting : ParseSetting) (states : List StateId) (popped : Nat) (covered : Length)
    (skipped : Nat) (passed : Length) : List Subtree → List (Cost × Plan)
  | [] => []
  | token :: rest =>
    let cost := setting.strategy.cost {
      popped := popped
      skipped := skipped
      skippedBytes := covered.bytes + passed.bytes
      skippedLines := covered.extent.row + passed.extent.row }
    let here :=
      if (popped == 0 && skipped == 0) || token.symbol == Symbol.error ||
          cost > setting.options.maxRecoveryCost ||
          (Recovery.simulate setting.table states token.symbol).isNone then []
      else [(cost, Plan.skip popped skipped)]
    here ++ setting.resumePlans states popped covered (skipped + 1) (passed + token.total) rest

/-- The plans to take subtrees off a stack and skip tokens, for ever more subtrees until taking them
off alone costs too much. -/
def skipPlans (setting : ParseSetting) (tokens : List Subtree) (base : StateId) (popped : Nat)
    (covered : Length) (frames : List Stack.Frame) : List (Cost × Plan) :=
  let alone := setting.strategy.cost {
    popped := popped, skippedBytes := covered.bytes, skippedLines := covered.extent.row }
  if alone > setting.options.maxRecoveryCost then []
  else
    let states := (Stack.mk base frames).structuralStates
    setting.resumePlans states popped covered 0 Length.zero tokens ++
      match frames with
      | [] => []
      | top :: below =>
        setting.skipPlans tokens base (popped + 1) (top.tree.total + covered) below

def sameToken (a b : Subtree) : Bool :=
  a.symbol == b.symbol && a.size.bytes == b.size.bytes && a.padding.bytes == b.padding.bytes

/-- Puts in a missing token, with the reductions in front of it. The fuel is the number of
actions. -/
def insertMissing (setting : ParseSetting) (i : Nat) (symbol : Symbol) : Nat → ParseState → ParseState
  | 0, s => s
  | fuel + 1, s =>
    match s.versions[i]? with
    | none => s
    | some v =>
      let table := setting.table
      let state := v.stack.state
      match (table.actionList state symbol).head? with
      | some (.reduce p) => setting.insertMissing i symbol fuel (setting.reduce s i p)
      | some (.shift next) =>
        let tree := Subtree.ofMissing table s.nextId symbol (table.lexMode state)
        { s with nextId := s.nextId + 1 }.setVersion i
          { v with stack := v.stack.push next tree false }
      | _ => s

def setLookahead (s : ParseState) (i : Nat) (tree : Subtree) : ParseState :=
  match s.versions[i]? with
  | none => s
  | some v => s.setVersion i { v with lookahead := some tree }

/-- Carries out the first plan after which the lexer still gives the token that the plan counts on.
Gives none if there is no such plan; the state then has the tokens that were lexed. -/
def carryOut (setting : ParseSetting) (i : Nat) (v : Version) (lookahead : Subtree)
    (tokens : List Subtree) (s : ParseState) : List Plan → Bool × ParseState
  | [] => (false, s)
  | .insert symbols state :: rest =>
    let (relexed, s) := setting.lex s v.position.bytes (setting.table.lexMode state)
    if sameToken relexed lookahead then
      let s := symbols.foldl
        (fun s symbol => setting.insertMissing i symbol Recovery.simulationLimit s) s
      (true, setLookahead s i relexed)
    else setting.carryOut i v lookahead tokens s rest
  | .skip popped skipped :: rest =>
    let taken := ((v.stack.frames.take popped).map (·.tree)).reverse
    let passed := tokens.take skipped
    let resumed : Stack := { v.stack with frames := v.stack.frames.drop popped }
    let position := passed.foldl (fun p token => p + token.total) v.position
    let (relexed, s) := setting.lex s position.bytes (setting.table.lexMode resumed.state)
    if (tokens[skipped]?).any (sameToken relexed) then
      let trees := taken ++ passed
      let stack :=
        if trees.isEmpty then resumed
        else resumed.push resumed.state (Subtree.ofSkipped setting.table s.nextId trees) false
      (true, { s with nextId := s.nextId + 1 }.setVersion i ⟨stack, position, some relexed⟩)
    else setting.carryOut i v lookahead tokens s rest

/-- Recovers a version from an error on its lookahead: by the cheapest plan that can be carried out,
or by closing the tree at the end of the text, or by skipping the lookahead. -/
def recover (setting : ParseSetting) (s : ParseState) (i : Nat) (v : Version)
    (lookahead : Subtree) : ParseState :=
  let inserts := setting.insertPlans v.stack lookahead
  let (more, s) := setting.upcoming s (v.position + lookahead.total) lookahead
    setting.options.maxSkippedTokens
  let tokens := lookahead :: more
  let skips := setting.skipPlans tokens v.stack.base 0 Length.zero v.stack.frames
  let plans := (inserts ++ skips).mergeSort fun a b => a.1 ≤ b.1
  let (done, s) := setting.carryOut i v lookahead tokens s (plans.map (·.2))
  if done then s
  else if lookahead.symbol == Symbol.eof then accept s i
  else
    let skipped := Subtree.ofSkipped setting.table s.nextId [lookahead]
    { s with nextId := s.nextId + 1 }.setVersion i {
      stack := v.stack.push v.stack.state skipped false
      position := v.position + lookahead.total
      lookahead := none }

/-- What to do about a lookahead without an action: drop the version if there are others, break down
reused nodes, or recover. -/
def handleError (setting : ParseSetting) (s : ParseState) (i : Nat) (v : Version)
    (lookahead : Subtree) : ParseState × Option ParseStatus :=
  if s.isForked || !s.accepted.isEmpty then (s.removeVersion i, none)
  else
    let (broken, stack) := breakPending setting.table v.stack
    let v := { v with stack := stack }
    let s := s.setVersion i v
    if broken then (s, none)
    else
      let s := { s with
        recoveries := s.recoveries + 1
        stats := { s.stats with recoveries := s.stats.recoveries + 1 } }
      if s.recoveries > setting.options.maxRecoveryAttempts then
        (s, some .recoveryExhausted)
      else (setting.recover s i v lookahead, none)

/-! ## Running -/

/-- Uses a node of the old tree as lookahead. It acts like its first leaf until it can be shifted as a
whole; when it can not be used the old tree is entered further. -/
def advanceReused (setting : ParseSetting) (s : ParseState) (i : Nat) (v : Version)
    (lookahead : Subtree) : ParseState :=
  let table := setting.table
  let state := v.stack.state
  let enter :=
    { s with reuse := s.reuse.map ReuseCursor.stepInto }.setVersion i { v with lookahead := none }
  match table.actionList state lookahead.head.firstLeaf.1 with
  | [.reduce p] => setting.reduce s i p
  | [.shift _] =>
    match table.nextState? state lookahead.symbol with
    | some next =>
      (s.setVersion i (shiftVersion v next lookahead true)).count fun c =>
        { c with reused := c.reused + 1 }
    | none => enter
  | _ => enter

/-- One operation on a version. Gives a status if the parse has to stop. -/
def advance (setting : ParseSetting) (s : ParseState) (i : Nat) : ParseState × Option ParseStatus :=
  match s.versions[i]? with
  | none => (s, none)
  | some v =>
    let (lookahead, s) := setting.fetch s v
    let v := { v with lookahead := some lookahead }
    let s := s.setVersion i v
    if !lookahead.isLeaf then (setting.advanceReused s i v lookahead, none)
    else
      match setting.table.actionList v.stack.state lookahead.symbol with
      | [] =>
        if lookahead.flags.extra then (shift s i v.stack.state lookahead, none)
        else setting.handleError s i v lookahead
      | [action] => (setting.apply s i lookahead action, none)
      | action :: others =>
        let s := s.count fun c => { c with ambigs := c.ambigs + 1 }
        (setting.apply (setting.fork v lookahead s others) i lookahead action, none)

/-- The only structural subtree, with what is in front of it and behind it, if there is just one and
it is of the start symbol. -/
def soleStart? (start : Symbol) (trees : List Subtree) :
    Option (List Subtree × Subtree × List Subtree) :=
  match trees.dropWhile (!·.isStructural) with
  | [] => none
  | t :: after =>
    if t.symbol == start && !after.any (·.isStructural) then
      some (trees.takeWhile (!·.isStructural), t, after)
    else none

/-- The root over the subtrees of a stack: always of the start symbol, and over the whole text. -/
def buildRoot (setting : ParseSetting) (id : Nat) (trees : List Subtree) (tail : List Subtree)
    (trailing : Length) : Subtree × Nat :=
  let table := setting.table
  let start := table.startSymbol
  let (trees, id) := Subtree.balanceWhere table setting.bases (fun _ => true) id trees
  let (children, production, id) :=
    match soleStart? start trees with
    | some (before, t, after) => (before ++ t.children ++ after, t.head.production, id)
    | none =>
      if trees.any (·.isStructural) then ([Subtree.ofSkipped table id trees], none, id + 1)
      else (trees, none, id)
  let root := Subtree.interior table id start (children ++ tail) production false
  (.mk { root.head with padding := Length.zero, size := root.total + trailing } root.children, id + 1)

/-- The best accepted version as a tree. -/
def finish (setting : ParseSetting) (s : ParseState) : Tree × ParseState :=
  let (root, next) :=
    match Accepted.best? s.accepted with
    | some best => setting.buildRoot s.nextId best.trees [] best.trailing
    | none => setting.buildRoot s.nextId [] [] (setting.lengthFrom s.input 0)
  (⟨root, setting.language, .complete⟩, { s with nextId := next })

/-- The best version as a tree, with the rest of the text as skipped text at its end. -/
def abort (setting : ParseSetting) (s : ParseState) (status : ParseStatus) : Tree × ParseState :=
  let (trees, position) :=
    match Version.best? s.versions with
    | some v => (v.stack.trees, v.position)
    | none => ([], Length.zero)
  let rest := setting.lengthFrom s.input position.bytes
  let tail :=
    if rest.bytes > 0 then
      [Subtree.ofToken setting.table s.nextId ⟨Symbol.error, Length.zero, rest, 1, LexMode.error⟩]
    else []
  let (root, next) := setting.buildRoot (s.nextId + 1) trees tail Length.zero
  (⟨root, setting.language, status⟩, { s with nextId := next })

/-- Runs a parse to its end, with so many operations at most. -/
def run (setting : ParseSetting) : Nat → ParseState → Tree × ParseState
  | 0, s => setting.abort s .cancelled
  | limit + 1, s =>
    if setting.cancelled then setting.abort s .cancelled
    else
      match s.nextVersion? with
      | none => setting.finish s
      | some i =>
        match setting.advance s i with
        | (s, some status) => setting.abort s status
        | (s, none) =>
          setting.run limit
            { s with versions := Version.condense setting.options.maxVersions s.versions }

end ParseSetting

end IncrementalLR
