import IncrementalLR.Text.Quoted

/-!
# Grammar definitions

A grammar definition lists named rules the way an author writes them: nested rule expressions with
choices, repetitions, precedence, field labels and lexical tokens. Loading turns it into flat
productions over numbered symbols.
-/

namespace IncrementalLR

/-- How operators of one precedence group. -/
inductive Associativity where
  | left
  | right
  /-- chaining operators of this precedence is an error -/
  | nonassoc
  deriving DecidableEq, Repr, Inhabited

def Associativity.name : Associativity → String
  | left => "Left"
  | right => "Right"
  | nonassoc => "NonAssoc"

/-- The body of a rule. -/
inductive Rule where
  /-- nothing -/
  | blank
  /-- exactly this text -/
  | literal (text : String)
  /-- text that matches a pattern -/
  | pattern (source : String)
  /-- the rule or external token of this name -/
  | symbol (name : String)
  | seq (items : List Rule)
  | choice (items : List Rule)
  | zeroOrMore (body : Rule)
  | oneOrMore (body : Rule)
  | optional (body : Rule)
  /-- a precedence that settles conflicts while the table is made -/
  | ranked (value : Int32) (assoc : Option Associativity) (body : Rule)
  /-- a precedence that settles between competing versions of a parse -/
  | weighted (value : Int32) (body : Rule)
  /-- labels the children that the body produces -/
  | field (name : String) (body : Rule)
  /-- a lexical expression that is one token -/
  | token (body : Rule)
  deriving BEq, Repr, Inhabited

namespace Rule

/-- A rule whose body is one token. -/
def isLexical : Rule → Bool
  | literal _ | pattern _ | token _ => true
  | _ => false

/-- One or more bodies with separators between them. -/
def sepBy1 (sep body : Rule) : Rule := seq [body, zeroOrMore (seq [sep, body])]

/-- Any number of bodies with separators between them. -/
def sepBy (sep body : Rule) : Rule := optional (sepBy1 sep body)

mutual

/-- A rule written out with the names of its parts, as it stands in error messages. -/
def describe : Rule → String
  | blank => "Blank"
  | literal text => "Literal(" ++ Text.quoted text ++ ")"
  | pattern source => "Pattern(" ++ Text.quoted source ++ ")"
  | symbol name => "Symbol(" ++ Text.quoted name ++ ")"
  | seq items => "Seq([" ++ describeAll items ++ "])"
  | choice items => "Choice([" ++ describeAll items ++ "])"
  | zeroOrMore body => "Repeat(" ++ describe body ++ ")"
  | oneOrMore body => "Repeat1(" ++ describe body ++ ")"
  | optional body => "Optional(" ++ describe body ++ ")"
  | ranked value assoc body =>
    "Prec \x7b value: " ++ toString value.toInt ++ ", assoc: " ++
      (match assoc with
        | none => "None"
        | some assoc => "Some(" ++ assoc.name ++ ")") ++
      ", rule: " ++ describe body ++ " \x7d"
  | weighted value body =>
    "DynamicPrec \x7b value: " ++ toString value.toInt ++ ", rule: " ++ describe body ++ " \x7d"
  | field name body =>
    "Field \x7b name: " ++ Text.quoted name ++ ", rule: " ++ describe body ++ " \x7d"
  | token body => "Token(" ++ describe body ++ ")"

def describeAll : List Rule → String
  | [] => ""
  | [item] => describe item
  | item :: items => describe item ++ ", " ++ describeAll items

end

end Rule

/-- One line of a token precedence table. -/
structure PrecedenceDecl where
  level : Int32
  assoc : Option Associativity
  /-- literals or token names -/
  tokens : List Rule
  deriving BEq, Repr, Inhabited

/-- A grammar as its author writes it. -/
structure GrammarDef where
  name : String
  /-- in the order of definition; the first is the start rule unless another is named -/
  rules : List (String × Rule) := []
  start : Option String := none
  /-- tokens that may stand between any two others; white space if absent -/
  extras : Option (List Rule) := none
  /-- the token of identifiers, from which keywords are set apart -/
  word : Option String := none
  /-- tokens that the external scanner of the language finds -/
  externals : List String := []
  /-- sets of rules between which the parser forks -/
  conflicts : List (List String) := []
  precedences : List PrecedenceDecl := []
  deriving BEq, Repr, Inhabited

end IncrementalLR
