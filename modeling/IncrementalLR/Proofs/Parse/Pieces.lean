import IncrementalLR.Parse.Parser
import IncrementalLR.Proofs.Parse.Spanning

/-!
# A parse does not depend on pieces

Two parses of one text go through the same states but for what they read the text from: only the lexer
reads, and the rest of the text when a parse ends, and both get from any input what is in the text.
-/

namespace IncrementalLR

/-- The state with the text read from something else. -/
def ParseState.reading (s : ParseState) (x : Option Text.Input) : ParseState := { s with input := x }

/-- All there is to read from gives the text. -/
def ParseSetting.Reads (setting : ParseSetting) (x : Option Text.Input) : Prop :=
  ∀ input ∈ x, input.text = setting.text

/-- The second state is the first one but for what the text is read from. -/
inductive ParseState.Agrees (setting : ParseSetting) (s : ParseState) : ParseState → Prop
  | intro (x : Option Text.Input) (hs : setting.Reads s.input) (hx : setting.Reads x) :
      Agrees setting s (s.reading x)

/-- Equal results, with states that agree. -/
structure ParseState.Same {α : Type} (setting : ParseSetting) (a b : α × ParseState) : Prop where
  fst : b.1 = a.1
  snd : a.2.Agrees setting b.2

namespace ParseState

namespace Agrees

variable {setting : ParseSetting} {s s' : ParseState}

/-- What does not read keeps that the states agree. -/
theorem map (h : s.Agrees setting s') (f : ParseState → ParseState)
    (hf : ∀ s x, f (s.reading x) = (f s).reading x) : (f s).Agrees setting (f s') := by
  obtain ⟨x, hs, hx⟩ := h
  have hinput : (f s).input = s.input := by
    have heq := hf s s.input
    rw [show s.reading s.input = s from rfl] at heq
    rw [heq]
    rfl
  rw [hf s x]
  exact .intro x (hinput ▸ hs) hx

/-- What does not depend on the input is the same of both. -/
theorem congr {α : Type} (h : s.Agrees setting s') (f : ParseState → α)
    (hf : ∀ s x, f (s.reading x) = f s) : f s' = f s := by
  obtain ⟨x, _, _⟩ := h
  exact hf s x

theorem setVersion (h : s.Agrees setting s') (i : Nat) (v : Version) :
    (s.setVersion i v).Agrees setting (s'.setVersion i v) :=
  h.map (fun s => s.setVersion i v) fun _ _ => rfl

theorem count (h : s.Agrees setting s') (f : ParseStats → ParseStats) :
    (s.count f).Agrees setting (s'.count f) :=
  h.map (fun s => s.count f) fun _ _ => rfl

theorem withNextId (h : s.Agrees setting s') (id : Nat) :
    { s with nextId := id }.Agrees setting { s' with nextId := id } :=
  h.map (fun s => { s with nextId := id }) fun _ _ => rfl

end Agrees

end ParseState

namespace ParseSetting

open ParseState (Agrees Same)

variable {setting : ParseSetting} {s s' : ParseState}

/-! ### Operations that do not read -/

theorem reduce_reading (s : ParseState) (i : Nat) (p : ProductionId) (x : Option Text.Input) :
    setting.reduce (s.reading x) i p = (setting.reduce s i p).reading x := by
  unfold reduce ParseState.reading
  cases s.versions[i]? with
  | none => rfl
  | some v => rfl

theorem shift_reading (s : ParseState) (i : Nat) (state : StateId) (tree : Subtree)
    (x : Option Text.Input) : shift (s.reading x) i state tree = (shift s i state tree).reading x := by
  unfold shift ParseState.reading
  cases s.versions[i]? with
  | none => rfl
  | some v => rfl

theorem accept_reading (s : ParseState) (i : Nat) (x : Option Text.Input) :
    accept (s.reading x) i = (accept s i).reading x := by
  unfold accept ParseState.reading
  cases s.versions[i]? with
  | none => rfl
  | some v => rfl

theorem setLookahead_reading (s : ParseState) (i : Nat) (tree : Subtree) (x : Option Text.Input) :
    setLookahead (s.reading x) i tree = (setLookahead s i tree).reading x := by
  unfold setLookahead ParseState.reading
  cases s.versions[i]? with
  | none => rfl
  | some v => rfl

theorem apply_reading (s : ParseState) (i : Nat) (lookahead : Subtree) (action : Action)
    (x : Option Text.Input) :
    setting.apply (s.reading x) i lookahead action
      = (setting.apply s i lookahead action).reading x := by
  cases action with
  | shift next => exact shift_reading s i next lookahead x
  | reduce p => exact reduce_reading s i p x
  | accept => exact accept_reading s i x
  | error | goto _ | ambig _ => rfl

theorem fork_reading (v : Version) (lookahead : Subtree) (actions : List Action) (s : ParseState)
    (x : Option Text.Input) :
    setting.fork v lookahead (s.reading x) actions
      = (setting.fork v lookahead s actions).reading x := by
  induction actions generalizing s with
  | nil => rfl
  | cons action rest ih =>
      rw [fork, fork, show (s.reading x).versions = s.versions from rfl]
      split
      · rfl
      · rw [← ih, ← apply_reading]
        rfl

theorem insertMissing_reading (i : Nat) (symbol : Symbol) (fuel : Nat) (s : ParseState)
    (x : Option Text.Input) :
    setting.insertMissing i symbol fuel (s.reading x)
      = (setting.insertMissing i symbol fuel s).reading x := by
  induction fuel generalizing s with
  | zero => rfl
  | succ fuel ih =>
      rw [insertMissing, insertMissing, show (s.reading x).versions = s.versions from rfl]
      cases s.versions[i]? with
      | none => rfl
      | some v =>
          simp only
          split
          · rw [reduce_reading, ih]
          · rfl
          · rfl

theorem advanceReused_reading (s : ParseState) (i : Nat) (v : Version) (lookahead : Subtree)
    (x : Option Text.Input) :
    setting.advanceReused (s.reading x) i v lookahead
      = (setting.advanceReused s i v lookahead).reading x := by
  unfold advanceReused
  simp only
  split
  · exact reduce_reading s i _ x
  · cases setting.table.nextState? v.stack.state lookahead.symbol with
    | none => rfl
    | some next => rfl
  · rfl

/-! ### Tokens -/

theorem same_lex (h : s.Agrees setting s') (position : Nat) (mode : LexMode) :
    Same setting (setting.lex s position mode) (setting.lex s' position mode) := by
  obtain ⟨x, hs, hx⟩ := h
  obtain ⟨htoken, hkept⟩ := token_spec hs position mode
  obtain ⟨htoken', hkept'⟩ := token_spec hx position mode
  unfold lex
  rw [show (s.reading x).cache = s.cache from rfl]
  simp only
  split
  · exact ⟨rfl, .intro x hs hx⟩
  · rw [show (s.reading x).input = x from rfl, htoken, htoken']
    exact ⟨rfl, .intro _ hkept hkept'⟩

theorem same_nextToken (h : s.Agrees setting s') (v : Version) :
    Same setting (setting.nextToken s v) (setting.nextToken s' v) := by
  unfold nextToken
  rw [h.congr ParseState.reuse fun _ _ => rfl, h.congr ParseState.isForked fun _ _ => rfl]
  cases s.reuse with
  | none => exact same_lex h _ _
  | some cursor =>
      by_cases hforked : s.isForked = true
      · simp only [if_pos hforked]
        exact same_lex h _ _
      · simp only [if_neg hforked]
        have htaken := h.map (fun s => { s with
          reuse := some (cursor.take setting.table v.position.bytes v.stack.state).2 }) fun _ _ => rfl
        cases (cursor.take setting.table v.position.bytes v.stack.state).1 with
        | none => exact same_lex htaken _ _
        | some tree =>
            simp only
            split
            · exact ⟨rfl, htaken.count fun c => { c with reused := c.reused + 1 }⟩
            · exact ⟨rfl, htaken⟩

theorem same_fetch (h : s.Agrees setting s') (v : Version) :
    Same setting (setting.fetch s v) (setting.fetch s' v) := by
  unfold fetch
  cases v.lookahead with
  | none => exact same_nextToken h v
  | some tree => exact ⟨rfl, h⟩

theorem same_upcoming (h : s.Agrees setting s') (position : Length) (last : Subtree) (limit : Nat) :
    Same setting (setting.upcoming s position last limit)
      (setting.upcoming s' position last limit) := by
  induction limit generalizing s s' position last with
  | zero => exact ⟨rfl, h⟩
  | succ limit ih =>
      rw [upcoming, upcoming]
      split
      · exact ⟨rfl, h⟩
      · obtain ⟨htoken, hlexed⟩ := same_lex h position.bytes LexMode.error
        obtain ⟨hrest, hagrees⟩ := ih hlexed
          (position + (setting.lex s position.bytes LexMode.error).1.total)
          (setting.lex s position.bytes LexMode.error).1
        simp only [htoken]
        exact ⟨congrArg (_ :: ·) hrest, hagrees⟩

/-! ### Recovery -/

theorem insertAll_reading (i : Nat) (symbols : List Symbol) (s : ParseState) (x : Option Text.Input) :
    symbols.foldl (fun s symbol => setting.insertMissing i symbol Recovery.simulationLimit s)
        (s.reading x)
      = (symbols.foldl (fun s symbol =>
          setting.insertMissing i symbol Recovery.simulationLimit s) s).reading x := by
  induction symbols generalizing s with
  | nil => rfl
  | cons symbol symbols ih =>
      rw [List.foldl_cons, List.foldl_cons, insertMissing_reading, ih]

theorem same_carryOut (h : s.Agrees setting s') (i : Nat) (v : Version) (lookahead : Subtree)
    (tokens : List Subtree) (plans : List Plan) :
    Same setting (setting.carryOut i v lookahead tokens s plans)
      (setting.carryOut i v lookahead tokens s' plans) := by
  induction plans generalizing s s' with
  | nil => exact ⟨rfl, h⟩
  | cons plan rest ih =>
      cases plan with
      | insert symbols state =>
          obtain ⟨htoken, hlexed⟩ := same_lex h v.position.bytes (setting.table.lexMode state)
          rw [carryOut, carryOut]
          simp only [htoken]
          split
          · refine ⟨rfl, hlexed.map (fun s => setLookahead (symbols.foldl (fun s symbol =>
              setting.insertMissing i symbol Recovery.simulationLimit s) s) i _) fun s x => ?_⟩
            rw [insertAll_reading, setLookahead_reading]
          · exact ih hlexed
      | skip popped skipped =>
          rw [carryOut, carryOut]
          simp only
          generalize (tokens.take skipped).foldl (fun p token => p + token.total) v.position
            = position
          obtain ⟨htoken, hlexed⟩ := same_lex h position.bytes (setting.table.lexMode
            { v.stack with frames := v.stack.frames.drop popped : Stack }.state)
          rw [htoken, hlexed.congr ParseState.nextId fun _ _ => rfl]
          split
          · exact ⟨rfl, (hlexed.withNextId _).setVersion i _⟩
          · exact ih hlexed

theorem agrees_recover (h : s.Agrees setting s') (i : Nat) (v : Version) (lookahead : Subtree) :
    (setting.recover s i v lookahead).Agrees setting (setting.recover s' i v lookahead) := by
  obtain ⟨hmore, hlexed⟩ := same_upcoming h (v.position + lookahead.total) lookahead
    setting.options.maxSkippedTokens
  rw [recover, recover]
  simp only [hmore]
  generalize lookahead :: (setting.upcoming s (v.position + lookahead.total) lookahead
    setting.options.maxSkippedTokens).1 = tokens
  generalize ((setting.insertPlans v.stack lookahead ++ setting.skipPlans tokens v.stack.base 0
    Length.zero v.stack.frames).mergeSort fun a b => a.1 ≤ b.1).map (·.2) = plans
  obtain ⟨hdone, hcarried⟩ := same_carryOut hlexed i v lookahead tokens plans
  rw [hdone, hcarried.congr ParseState.nextId fun _ _ => rfl]
  split
  · exact hcarried
  · split
    · exact hcarried.map (fun s => accept s i) fun s x => accept_reading s i x
    · exact (hcarried.withNextId _).setVersion i _

theorem same_handleError (h : s.Agrees setting s') (i : Nat) (v : Version) (lookahead : Subtree) :
    (setting.handleError s' i v lookahead).2 = (setting.handleError s i v lookahead).2 ∧
      (setting.handleError s i v lookahead).1.Agrees setting
        (setting.handleError s' i v lookahead).1 := by
  rw [handleError, handleError, h.congr ParseState.isForked fun _ _ => rfl,
    h.congr ParseState.accepted fun _ _ => rfl]
  split
  · exact ⟨rfl, h.map (fun s => s.removeVersion i) fun _ _ => rfl⟩
  · generalize breakPending setting.table v.stack = result
    obtain ⟨broken, stack⟩ := result
    have hset := h.setVersion i { v with stack := stack }
    simp only
    split
    · exact ⟨rfl, hset⟩
    · have hcounted := hset.map (fun s => { s with
        recoveries := s.recoveries + 1
        stats := { s.stats with recoveries := s.stats.recoveries + 1 } }) fun _ _ => rfl
      have hrecoveries := hset.congr ParseState.recoveries fun _ _ => rfl
      rw [hrecoveries] at hcounted ⊢
      split
      · exact ⟨rfl, hcounted⟩
      · exact ⟨rfl, agrees_recover hcounted i _ lookahead⟩

/-! ### Whole runs -/

theorem same_advance (h : s.Agrees setting s') (i : Nat) :
    (setting.advance s' i).2 = (setting.advance s i).2 ∧
      (setting.advance s i).1.Agrees setting (setting.advance s' i).1 := by
  rw [advance, advance, h.congr ParseState.versions fun _ _ => rfl]
  cases s.versions[i]? with
  | none => exact ⟨rfl, h⟩
  | some v =>
      obtain ⟨hfetch, hfetched⟩ := same_fetch h v
      simp only [hfetch]
      generalize (setting.fetch s v).1 = lookahead
      have hset := hfetched.setVersion i { v with lookahead := some lookahead }
      split
      · exact ⟨rfl, hset.map (fun s => setting.advanceReused s i _ lookahead) fun s x =>
          advanceReused_reading s i _ lookahead x⟩
      · split
        · split
          · exact ⟨rfl, hset.map (fun s => shift s i _ lookahead) fun s x =>
              shift_reading s i _ lookahead x⟩
          · exact same_handleError hset i _ lookahead
        · exact ⟨rfl, hset.map (fun s => setting.apply s i lookahead _) fun s x =>
            apply_reading s i lookahead _ x⟩
        · refine ⟨rfl, (hset.count fun c => { c with ambigs := c.ambigs + 1 }).map (fun s =>
            setting.apply (setting.fork _ lookahead s _) i lookahead _) fun s x => ?_⟩
          rw [fork_reading, apply_reading]

theorem same_finish (h : s.Agrees setting s') :
    Same setting (setting.finish s) (setting.finish s') := by
  obtain ⟨x, hs, hx⟩ := h
  unfold finish
  rw [show (s.reading x).input = x from rfl, lengthFrom_eq hs, lengthFrom_eq hx]
  exact ⟨rfl, .intro x hs hx⟩

theorem same_abort (h : s.Agrees setting s') (status : ParseStatus) :
    Same setting (setting.abort s status) (setting.abort s' status) := by
  obtain ⟨x, hs, hx⟩ := h
  unfold abort
  simp only [show (s.reading x).input = x from rfl, lengthFrom_eq hs, lengthFrom_eq hx]
  exact ⟨rfl, .intro x hs hx⟩

theorem same_run (h : s.Agrees setting s') (limit : Nat) :
    Same setting (setting.run limit s) (setting.run limit s') := by
  induction limit generalizing s s' with
  | zero => exact same_abort h .cancelled
  | succ limit ih =>
      rw [run, run]
      split
      · exact same_abort h .cancelled
      · rw [h.congr ParseState.nextVersion? fun _ _ => rfl]
        cases s.nextVersion? with
        | none => exact same_finish h
        | some i =>
            obtain ⟨hstatus, hagrees⟩ := same_advance h i
            simp only
            generalize setting.advance s i = result at hstatus hagrees ⊢
            generalize setting.advance s' i = result' at hstatus hagrees ⊢
            obtain ⟨s₁, status⟩ := result
            obtain ⟨s₁', status'⟩ := result'
            simp only at hstatus hagrees
            subst hstatus
            cases status' with
            | some status => exact same_abort hagrees status
            | none =>
                exact ih (hagrees.map (fun s => { s with
                  versions := Version.condense setting.options.maxVersions s.versions })
                  fun _ _ => rfl)

end ParseSetting

namespace Parser

/-- A parse makes of an input what it makes of its text. -/
theorem parseWith_eq_parse (p : Parser) (input : Text.Input) (old : Option Tree) (id : Nat) :
    p.parseWith input old id = p.parse input.text old id := by
  have hparsed : ∀ a b : Tree × ParseState, ParseState.Same (p.setting input.text) a b →
      Parsed.mk b.1 b.2.stats b.2.nextId = Parsed.mk a.1 a.2.stats a.2.nextId := by
    rintro a b ⟨htree, hagrees⟩
    rw [htree, hagrees.congr ParseState.stats fun _ _ => rfl,
      hagrees.congr ParseState.nextId fun _ _ => rfl]
  have hreads : (p.setting input.text).Reads (some input) := by
    intro x hx
    rw [← Option.some.inj hx]
    rfl
  have hagrees : ∀ s : ParseState, s.input = none →
      s.Agrees (p.setting input.text) (s.reading (some input)) := by
    intro s hs
    refine .intro (some input) (fun x hx => ?_) hreads
    rw [hs] at hx
    cases hx
  exact hparsed _ _ (ParseSetting.same_run (hagrees _ rfl) p.options.operationLimit)

/-- However a text is cut into pieces, the lexer gives the same tokens of it, and a parse the same
tree. -/
theorem parseWith_eq_of_text_eq (p : Parser) {input₁ input₂ : Text.Input}
    (h : input₁.text = input₂.text) :
    (∀ (position : Nat) (mode : LexMode) (scanner : Option ExternalScanner),
      (p.language.lexer.lexFrom input₁ position mode scanner).1
        = (p.language.lexer.lexFrom input₂ position mode scanner).1) ∧
      ∀ (old : Option Tree) (id : Nat), p.parseWith input₁ old id = p.parseWith input₂ old id := by
  refine ⟨fun position mode scanner => ?_, fun old id => ?_⟩
  · rw [(Lexer.lexFrom_spec ..).1, (Lexer.lexFrom_spec ..).1, h]
  · rw [parseWith_eq_parse, parseWith_eq_parse, h]

end Parser

/-- The text in pieces each of which is one byte longer than the one before. -/
def Text.Input.growing (text : ByteArray) : Text.Input :=
  .chunked (.ofPieces (.ofSizes text fun asked _ => asked.length))

/-- Growing pieces are lexed and parsed as the text in one piece. -/
theorem Parser.parseWith_growing : ∃ l, Language.load .optionalToken .strict = .ok l ∧
    (Text.Input.growing "xx x".toUTF8).text = (Text.Input.whole "xx x".toUTF8).text ∧
    (∀ (position : Nat) (mode : LexMode) (scanner : Option ExternalScanner),
      (l.lexer.lexFrom (.growing "xx x".toUTF8) position mode scanner).1
        = (l.lexer.lexFrom (.whole "xx x".toUTF8) position mode scanner).1) ∧
      ∀ (old : Option Tree) (id : Nat),
        (Parser.ofLanguage l).parseWith (.growing "xx x".toUTF8) old id
          = (Parser.ofLanguage l).parseWith (.whole "xx x".toUTF8) old id := by
  obtain ⟨l, hl, _⟩ := exists_load_optionalToken
  have htext : (Text.Input.growing "xx x".toUTF8).text = (Text.Input.whole "xx x".toUTF8).text := rfl
  exact ⟨l, hl, htext, (Parser.ofLanguage l).parseWith_eq_of_text_eq htext⟩

end IncrementalLR
