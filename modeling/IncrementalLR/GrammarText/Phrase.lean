/-!
# Phrases

A phrase reads a value from the front of a list of tokens or fails. A choice is ordered: once an
alternative has read something, those behind it are not tried, whatever comes after. An alternative
that fails leaves the tokens as they were.
-/

namespace IncrementalLR.GrammarText

abbrev Phrase (τ α : Type) := List τ → Option (α × List τ)

namespace Phrase

variable {τ α β : Type}

/-- A single token that stands for a value. -/
def select (value? : τ → Option α) : Phrase τ α
  | [] => none
  | t :: ts => (value? t).map fun value => (value, ts)

def just [DecidableEq τ] (t : τ) : Phrase τ Unit := select fun t' => if t' = t then some () else none

def map (f : α → β) (p : Phrase τ α) : Phrase τ β := fun ts =>
  (p ts).map fun (value, rest) => (f value, rest)

/-- Fails where the value that is read is refused. -/
def tryMap (f : α → Option β) (p : Phrase τ α) : Phrase τ β := fun ts =>
  match p ts with
  | some (value, rest) => (f value).map fun value => (value, rest)
  | none => none

def andThen (p : Phrase τ α) (q : Phrase τ β) : Phrase τ (α × β) := fun ts =>
  match p ts with
  | some (first, rest) => q.map (fun second => (first, second)) rest
  | none => none

def thenIgnore (p : Phrase τ α) (q : Phrase τ β) : Phrase τ α := (p.andThen q).map (·.1)

def ignoreThen (p : Phrase τ α) (q : Phrase τ β) : Phrase τ β := (p.andThen q).map (·.2)

def delimitedBy (p : Phrase τ α) (opening closing : Phrase τ Unit) : Phrase τ α :=
  (opening.ignoreThen p).thenIgnore closing

/-- The second phrase is tried only where the first one fails. -/
def or (p q : Phrase τ α) : Phrase τ α := fun ts =>
  match p ts with
  | some r => some r
  | none => q ts

def choice : List (Phrase τ α) → Phrase τ α
  | [] => fun _ => none
  | p :: ps => p.or (choice ps)

def orNot (p : Phrase τ α) : Phrase τ (Option α) := fun ts =>
  match p ts with
  | some (value, rest) => some (some value, rest)
  | none => some (none, ts)

/-- The phrase over and over, up to where it fails or takes nothing. -/
def repeated (p : Phrase τ α) : Phrase τ (List α) := fun ts =>
  match p ts with
  | some (value, rest) =>
    if _h : rest.length < ts.length then
      (repeated p rest).map fun (values, last) => (value :: values, last)
    else some ([], ts)
  | none => some ([], ts)
termination_by ts => ts.length

/-- The phrase at least once. A separator belongs to the list only if the phrase reads behind it. -/
def separatedBy (p : Phrase τ α) (separator : Phrase τ Unit) : Phrase τ (List α) :=
  (p.andThen (repeated (separator.ignoreThen p))).map fun (first, others) => first :: others

/-- A phrase and those behind it that wrap its value, the first one innermost. -/
def foldl (p : Phrase τ α) (wrappers : Phrase τ (List β)) (wrap : α → β → α) : Phrase τ α :=
  (p.andThen wrappers).map fun (value, wraps) => wraps.foldl wrap value

/-- The value together with the number of tokens from the first one to the end of the file. -/
def withRemaining (p : Phrase τ α) : Phrase τ (α × Nat) := fun ts =>
  p.map (fun value => (value, ts.length)) ts

def ending : Phrase τ Unit
  | [] => some ((), [])
  | _ :: _ => none

/-- A phrase that contains itself, behind one token at least. -/
def recursive (body : Phrase τ α → Phrase τ α) : Phrase τ α := fun ts =>
  body (fun rest => if _h : rest.length < ts.length then recursive body rest else none) ts
termination_by ts => ts.length

end Phrase

end IncrementalLR.GrammarText
