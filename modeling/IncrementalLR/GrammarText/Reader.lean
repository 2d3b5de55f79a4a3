import IncrementalLR.GrammarText.Declaration

/-!
# Grammar files

The phrases of a file say what it declares. Where they read nothing, a reader that looks at one token
or two to decide how to go on finds the first token that cannot continue, for the error. The
declarations are then put together to a definition.
-/

namespace IncrementalLR.GrammarText

/-- A reader takes tokens from the front. An error is the number of tokens from the one that cannot
continue to the end of the file. -/
abbrev Reader (α : Type) := List Token → Except Nat (α × List Token)

/-- The error at the first of these tokens. -/
def Reader.fail {α : Type} : Reader α := fun ts => .error ts.length

def Reader.expect (t : Token) : Reader Unit
  | t' :: ts => if t' = t then .ok ((), ts) else .error (ts.length + 1)
  | [] => .error 0

/-- Wraps a rule in the postfix operators that follow. -/
def readOperators (rule : Rule) : List Token → Rule × List Token
  | .star :: ts => readOperators (.zeroOrMore rule) ts
  | .plus :: ts => readOperators (.oneOrMore rule) ts
  | .question :: ts => readOperators (.optional rule) ts
  | ts => (rule, ts)

/-- The level in front of the body of a call. -/
def readLevel : List Token → Option Int × List Token
  | .int n :: .comma :: ts => (some n, ts)
  | ts => (none, ts)

def startsElement : List Token → Bool
  | .ident _ :: _ | .str _ :: _ | .regex _ :: _ | .lparen :: _ => true
  | _ => false

mutual

/-- Reads alternatives; the first argument bounds the depth of the calls. -/
def readAlternatives : Nat → Reader (List Rule)
  | 0, ts => Reader.fail ts
  | fuel + 1, ts => do
    let (items, ts) ← readSequence fuel ts
    match ts with
    | .pipe :: ts =>
      let (rest, ts) ← readAlternatives fuel ts
      return (sequenceRule items :: rest, ts)
    | ts => return ([sequenceRule items], ts)

/-- Reads elements for as long as one starts. -/
def readSequence : Nat → Reader (List Rule)
  | 0, ts => Reader.fail ts
  | fuel + 1, ts =>
    if startsElement ts then do
      let (item, ts) ← readElement fuel ts
      let (items, ts) ← readSequence fuel ts
      return (item :: items, ts)
    else return ([], ts)

/-- Reads an element. When the part behind a field label is no element, the colon is the token that
cannot continue. -/
def readElement : Nat → Reader Rule
  | 0, ts => Reader.fail ts
  | fuel + 1, ts =>
    match ts with
    | .ident name :: .colon :: ts =>
      match readPostfix fuel ts with
      | .ok (rule, ts) => .ok (.field name rule, ts)
      | .error _ => .error (ts.length + 1)
    | ts => readPostfix fuel ts

/-- Reads an atom and the postfix operators behind it. -/
def readPostfix : Nat → Reader Rule
  | 0, ts => Reader.fail ts
  | fuel + 1, ts => do
    let (rule, ts) ← readAtom fuel ts
    return readOperators rule ts

/-- Reads an atom. A call with the wrong arguments fails at its opening parenthesis. -/
def readAtom : Nat → Reader Rule
  | 0, ts => Reader.fail ts
  | fuel + 1, ts =>
    match ts with
    | .str text :: ts => .ok (.literal text, ts)
    | .regex source :: ts => .ok (.pattern source, ts)
    | .lparen :: ts => do
      let (alternatives, ts) ← readAlternatives fuel ts
      let ((), ts) ← Reader.expect .rparen ts
      return (choiceRule alternatives, ts)
    | .ident name :: ts =>
      match Builtin.ofName? name with
      | none => .ok (.symbol name, ts)
      | some builtin => do
        let opening := ts.length
        let ((), ts) ← Reader.expect .lparen ts
        let (level, ts) := readLevel ts
        let (alternatives, ts) ← readAlternatives fuel ts
        let ((), ts) ← Reader.expect .rparen ts
        match builtin.apply level (some (choiceRule alternatives)) with
        | some rule => return (rule, ts)
        | none => .error opening
    | ts => Reader.fail ts

end

/-- A bound on the depth of calls that reads any body of these tokens. -/
def bodyFuel (ts : List Token) : Nat := 6 * ts.length + 6

def readBody : Reader Rule := fun ts => do
  let (alternatives, ts) ← readAlternatives (bodyFuel ts) ts
  return (choiceRule alternatives, ts)

/-- Reads directive arguments for as long as one starts. -/
def readArgs : List Token → List Arg × List Token
  | [] => ([], [])
  | t :: ts =>
    match Arg.ofToken? t with
    | some arg => let (args, rest) := readArgs ts; (arg :: args, rest)
    | none => ([], t :: ts)

def readItem : Reader Item
  | .directive name :: ts => do
    let (args, rest) := readArgs ts
    let ((), rest) ← Reader.expect .semi rest
    return (.directive name args (ts.length + 1), rest)
  | .ident name :: ts => do
    let ((), ts) ← Reader.expect .arrow ts
    let (body, ts) ← readBody ts
    let ((), ts) ← Reader.expect .semi ts
    return (.rule name body, ts)
  | ts => Reader.fail ts

/-- Reads declarations to the end of the file; the first argument bounds their number. -/
def readItems : Nat → List Token → Except Nat (List Item)
  | _, [] => .ok []
  | 0, ts => .error ts.length
  | fuel + 1, ts => do
    let (item, ts) ← readItem ts
    let items ← readItems fuel ts
    return item :: items

/-- The number of tokens from the one that cannot continue to the end of a file that does not read. -/
def unreadable (ts : List Token) : Nat :=
  match readItems (ts.length + 1) ts with
  | .error remaining => remaining
  | .ok _ => 0

inductive DirectiveError where
  | expectedName (found : Arg)
  | expectedOneName
  | expectedRule (found : Arg)
  | unknown (name : String)
  deriving DecidableEq, Repr, Inhabited

def DirectiveError.message : DirectiveError → String
  | expectedName found => "expected a name, found " ++ found.describe
  | expectedOneName => "expected exactly one name"
  | expectedRule found => "expected a name, literal or pattern, found " ++ found.describe
  | unknown name => "unknown directive %" ++ name

inductive ReadCause where
  | lexical (cause : LexicalError)
  /-- a token that cannot continue, or the end of the file -/
  | found (token : Option Token)
  | directive (name : String) (cause : DirectiveError)
  deriving DecidableEq, Repr, Inhabited

/-- Why a grammar file does not read, and where. -/
structure ReadError where
  place : Place
  cause : ReadCause
  deriving DecidableEq, Repr, Inhabited

def ReadError.message (e : ReadError) : String :=
  e.place.render ++ ": " ++ match e.cause with
    | .lexical cause => cause.message
    | .found (some token) => "found '" ++ token.render ++ "'"
    | .found none => "found end of input"
    | .directive name cause => "in %" ++ name ++ ": " ++ cause.message

def argNames (args : List Arg) : Except DirectiveError (List String) :=
  args.mapM fun
    | .ident name => .ok name
    | arg => .error (.expectedName arg)

def argName (args : List Arg) : Except DirectiveError String := do
  match ← argNames args with
  | [name] => return name
  | _ => throw .expectedOneName

def argRules (args : List Arg) : Except DirectiveError (List Rule) :=
  args.mapM fun arg =>
    match arg.toRule? with
    | some rule => .ok rule
    | none => .error (.expectedRule arg)

/-- The associativity that a precedence directive declares. -/
def directiveAssoc? : String → Option Associativity
  | "left" => some .left
  | "right" => some .right
  | "nonassoc" => some .nonassoc
  | _ => none

/-- What a directive adds to a definition. Each precedence directive is one level above those
before it. -/
def applyDirective (g : GrammarDef) (name : String) (args : List Arg) :
    Except DirectiveError GrammarDef :=
  match name with
  | "grammar" => do return { g with name := ← argName args }
  | "start" => do return { g with start := some (← argName args) }
  | "word" => do return { g with word := some (← argName args) }
  | "extras" => do return { g with extras := some (← argRules args) }
  | "externals" => do return { g with externals := g.externals ++ (← argNames args) }
  | "conflicts" => do return { g with conflicts := g.conflicts ++ [← argNames args] }
  | name =>
    match directiveAssoc? name with
    | none => throw (.unknown name)
    | some assoc => do
      let level := Int32.ofNat (g.precedences.length + 1)
      return { g with precedences := g.precedences ++ [⟨level, some assoc, ← argRules args⟩] }

/-- The place of the token that has this many tokens from its own to the end. -/
def placeOf (tokens : List (Place × Token)) (last : Place) (remaining : Nat) : Place :=
  match tokens[tokens.length - remaining]? with
  | some (place, _) => place
  | none => last

/-- The definition that a grammar file stands for; `name` serves unless a directive gives one. -/
def read (source : String) (name : String) : Except ReadError GrammarDef := do
  let (tokens, last) ← match tokenize source with
    | .ok found => .ok found
    | .error (place, cause) => .error ⟨place, .lexical cause⟩
  let items ← match declarations? (tokens.map (·.2)) with
    | some items => .ok items
    | none =>
      let remaining := unreadable (tokens.map (·.2))
      .error ⟨placeOf tokens last remaining,
        .found (tokens[tokens.length - remaining]?.map (·.2))⟩
  items.foldlM (fun g item =>
    match item with
    | .rule name body => .ok { g with rules := g.rules ++ [(name, body)] }
    | .directive name args remaining =>
      match applyDirective g name args with
      | .ok g => .ok g
      | .error cause => .error ⟨placeOf tokens last remaining, .directive name cause⟩)
    { name := name }

end IncrementalLR.GrammarText
