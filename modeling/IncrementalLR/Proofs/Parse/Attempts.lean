import IncrementalLR.Parse.Engine

/-!
# The count of recoveries

Recoveries are counted twice, for the limit on them and for the statistics. Both counts grow where an
operation begins a recovery, and nowhere else.
-/

namespace IncrementalLR

/-- The recoveries begun so far, as they are counted for the limit and for the statistics. -/
def ParseState.attempts (s : ParseState) : Nat × Nat := (s.recoveries, s.stats.recoveries)

namespace ParseSetting

variable {setting : ParseSetting} {s : ParseState} {i : Nat}

theorem attempts_lex (position : Nat) (mode : LexMode) :
    (setting.lex s position mode).2.attempts = s.attempts := by
  rw [lex]
  simp only
  split
  · rfl
  · rfl

theorem attempts_nextToken (v : Version) :
    (setting.nextToken s v).2.attempts = s.attempts := by
  rw [nextToken]
  cases s.reuse with
  | none => exact attempts_lex ..
  | some cursor =>
      by_cases hforked : s.isForked = true
      · simp only [if_pos hforked]
        exact attempts_lex ..
      · simp only [if_neg hforked]
        cases (cursor.take setting.table v.position.bytes v.stack.state).1 with
        | none => exact attempts_lex ..
        | some tree =>
            simp only
            split
            · rfl
            · rfl

theorem attempts_fetch (v : Version) :
    (setting.fetch s v).2.attempts = s.attempts := by
  rw [fetch]
  split
  · rfl
  · exact attempts_nextToken v

theorem attempts_reduce (p : ProductionId) :
    (setting.reduce s i p).attempts = s.attempts := by
  rw [reduce]
  split
  · rfl
  · rfl

theorem attempts_shift (state : StateId) (tree : Subtree) :
    (shift s i state tree).attempts = s.attempts := by
  rw [shift]
  split
  · rfl
  · rfl

theorem attempts_accept : (accept s i).attempts = s.attempts := by
  rw [accept]
  split
  · rfl
  · rfl

theorem attempts_apply (lookahead : Subtree) (action : Action) :
    (setting.apply s i lookahead action).attempts = s.attempts := by
  cases action with
  | shift next => exact attempts_shift next lookahead
  | reduce p => exact attempts_reduce p
  | accept => exact attempts_accept
  | error => rfl
  | goto => rfl
  | ambig => rfl

theorem attempts_fork (v : Version) (lookahead : Subtree) (actions : List Action) :
    (setting.fork v lookahead s actions).attempts = s.attempts := by
  induction actions generalizing s with
  | nil => rfl
  | cons action actions ih =>
      rw [fork]
      split
      · rfl
      · exact ih.trans (attempts_apply lookahead action)

theorem attempts_advanceReused (v : Version) (lookahead : Subtree) :
    (setting.advanceReused s i v lookahead).attempts = s.attempts := by
  rw [advanceReused]
  split
  · exact attempts_reduce _
  · split
    · rfl
    · rfl
  · rfl

/-! ### Within a recovery -/

theorem attempts_upcoming (position : Length) (last : Subtree) (limit : Nat) :
    (setting.upcoming s position last limit).2.attempts = s.attempts := by
  induction limit generalizing s position last with
  | zero => rfl
  | succ limit ih =>
      rw [upcoming]
      split
      · rfl
      · exact (ih _ _).trans (attempts_lex ..)

theorem attempts_insertMissing (symbol : Symbol) (fuel : Nat) :
    (setting.insertMissing i symbol fuel s).attempts = s.attempts := by
  induction fuel generalizing s with
  | zero => rfl
  | succ fuel ih =>
      rw [insertMissing]
      split
      · rfl
      · simp only
        split
        · exact ih.trans (attempts_reduce _)
        · rfl
        · rfl

theorem attempts_insertAll (symbols : List Symbol) (fuel : Nat) :
    (symbols.foldl (fun s symbol => setting.insertMissing i symbol fuel s) s).attempts
      = s.attempts := by
  induction symbols generalizing s with
  | nil => rfl
  | cons symbol symbols ih => exact ih.trans (attempts_insertMissing symbol fuel)

theorem attempts_setLookahead (tree : Subtree) : (setLookahead s i tree).attempts = s.attempts := by
  rw [setLookahead]
  split
  · rfl
  · rfl

theorem attempts_carryOut (v : Version) (lookahead : Subtree) (tokens : List Subtree)
    (plans : List Plan) :
    (setting.carryOut i v lookahead tokens s plans).2.attempts = s.attempts := by
  induction plans generalizing s with
  | nil => rfl
  | cons plan plans ih =>
      cases plan with
      | insert symbols state =>
          rw [carryOut]
          simp only
          split
          · exact (attempts_setLookahead _).trans ((attempts_insertAll ..).trans (attempts_lex ..))
          · exact ih.trans (attempts_lex ..)
      | skip popped skipped =>
          rw [carryOut]
          simp only
          split
          · exact attempts_lex ..
          · exact ih.trans (attempts_lex ..)

theorem attempts_recover (v : Version) (lookahead : Subtree) :
    (setting.recover s i v lookahead).attempts = s.attempts := by
  rw [recover]
  simp only
  split
  · exact (attempts_carryOut ..).trans (attempts_upcoming ..)
  · split
    · exact attempts_accept.trans ((attempts_carryOut ..).trans (attempts_upcoming ..))
    · exact (attempts_carryOut ..).trans (attempts_upcoming ..)

end ParseSetting

end IncrementalLR
