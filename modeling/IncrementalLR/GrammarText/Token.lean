import IncrementalLR.Text.Quoted

/-!
# Tokens of the grammar notation

A grammar file is split into names, directives, numbers, quoted literals, patterns between slashes
and punctuation. White space and comments from two slashes to the end of the line stand between
tokens and are dropped.
-/

namespace IncrementalLR.GrammarText

/-- A place in a grammar file: a line and a column, both counted from one, columns in bytes. -/
structure Place where
  line : Nat
  column : Nat
  deriving DecidableEq, Repr, Inhabited

namespace Place

def first : Place := ⟨1, 1⟩

def advance (p : Place) (c : Char) : Place :=
  if c = '\n' then ⟨p.line + 1, 1⟩ else ⟨p.line, p.column + c.utf8Size⟩

def after (p : Place) (cs : List Char) : Place := cs.foldl advance p

def render (p : Place) : String := s!"{p.line}:{p.column}"

end Place

inductive Token where
  /-- a name behind a percent sign -/
  | directive (name : String)
  | ident (name : String)
  | int (value : Int)
  /-- a literal without its quotes and escapes -/
  | str (text : String)
  /-- a pattern without its slashes -/
  | regex (source : String)
  | arrow
  | pipe
  | semi
  | colon
  | comma
  | lparen
  | rparen
  | star
  | plus
  | question
  deriving DecidableEq, Repr, Inhabited

def Token.render : Token → String
  | directive name => "%" ++ name
  | ident name => name
  | int value => toString value
  | str text => Text.quoted text
  | regex source => "/" ++ source ++ "/"
  | arrow => "->"
  | pipe => "|"
  | semi => ";"
  | colon => ":"
  | comma => ","
  | lparen => "("
  | rparen => ")"
  | star => "*"
  | plus => "+"
  | question => "?"

inductive LexicalError where
  | unexpected (text : String)
  | integerOutOfRange (text : String)
  deriving DecidableEq, Repr, Inhabited

def LexicalError.message : LexicalError → String
  | unexpected text => "unexpected character " ++ Text.quoted text
  | integerOutOfRange text => "integer " ++ text ++ " out of range"

def isBlank (c : Char) : Bool := c == ' ' || c == '\t' || c == '\r' || c == '\n' || c == '\x0c'

def isIdentStart (c : Char) : Bool :=
  ('A' ≤ c && c ≤ 'Z') || ('a' ≤ c && c ≤ 'z') || c == '_'

def isDigit (c : Char) : Bool := '0' ≤ c && c ≤ '9'

def isIdentRest (c : Char) : Bool := isIdentStart c || isDigit c

def isDirectiveRest (c : Char) : Bool := ('a' ≤ c && c ≤ 'z') || c == '_'

/-- The number of characters in front of the first that fails `p`. -/
def countWhile (p : Char → Bool) (cs : List Char) : Nat := (cs.takeWhile p).length

/-- The number of characters in the items of a delimited text: an item is a backslash with one
character, or one character other than the backslash and the delimiter; newlines are in no item. -/
def itemsLength (close : Char) : List Char → Nat
  | '\\' :: c :: rest => if c = '\n' then 0 else itemsLength close rest + 2
  | c :: rest =>
    if c = close ∨ c = '\\' ∨ c = '\n' then 0 else itemsLength close rest + 1
  | [] => 0

/-- The text that a quoted literal stands for. -/
def unescape : List Char → List Char
  | '\\' :: c :: rest =>
    (match c with
      | 'n' => '\n'
      | 't' => '\t'
      | 'r' => '\r'
      | '0' => '\x00'
      | c => c) :: unescape rest
  | c :: rest => c :: unescape rest
  | [] => []

/-- The pattern that stands between slashes: an escaped slash is a slash. -/
def unescapeSlashes : List Char → List Char
  | '\\' :: '/' :: rest => '/' :: unescapeSlashes rest
  | c :: rest => c :: unescapeSlashes rest
  | [] => []

/-- The value of a sequence of decimal digits. -/
def digitsValue (cs : List Char) : Nat := cs.foldl (fun n c => 10 * n + (c.toNat - '0'.toNat)) 0

/-- The integer written by an optional sign and digits, if it has 32 bits. -/
def intToken (cs : List Char) : Except LexicalError Token :=
  let value : Int := match cs with
    | '-' :: digits => - (digitsValue digits : Int)
    | digits => digitsValue digits
  if -2147483648 ≤ value ∧ value ≤ 2147483647 then .ok (.int value)
  else .error (.integerOutOfRange (String.ofList cs))

/-- What stands at the front of a text, and how many characters behind the first belong to it. -/
structure Scan where
  token : Option (Except LexicalError Token)
  more : Nat

def scanDelimited (close : Char) (least : Nat) (make : List Char → Token) (c : Char)
    (cs : List Char) : Scan :=
  let n := itemsLength close cs
  if n ≥ least ∧ (cs.drop n).head? = some close then ⟨some (.ok (make (cs.take n))), n + 1⟩
  else ⟨some (.error (.unexpected (String.ofList (c :: cs.take n)))), n⟩

/-- The longest lexeme that starts with the character `c`. -/
def scan (c : Char) (cs : List Char) : Scan :=
  let one (t : Token) : Scan := ⟨some (.ok t), 0⟩
  let unexpected : Scan := ⟨some (.error (.unexpected (String.ofList [c]))), 0⟩
  match c with
  | '|' => one .pipe
  | ';' => one .semi
  | ':' => one .colon
  | ',' => one .comma
  | '(' => one .lparen
  | ')' => one .rparen
  | '*' => one .star
  | '+' => one .plus
  | '?' => one .question
  | '%' =>
    let n := countWhile isDirectiveRest cs
    if n = 0 then unexpected else ⟨some (.ok (.directive (String.ofList (cs.take n)))), n⟩
  | '-' =>
    if cs.head? = some '>' then ⟨some (.ok .arrow), 1⟩
    else
      let n := countWhile isDigit cs
      if n = 0 then unexpected else ⟨some (intToken ('-' :: cs.take n)), n⟩
  | '"' => scanDelimited '"' 0 (fun body => .str (String.ofList (unescape body))) c cs
  | '/' =>
    if cs.head? = some '/' then ⟨none, countWhile (· != '\n') cs⟩
    else scanDelimited '/' 1 (fun body => .regex (String.ofList (unescapeSlashes body))) c cs
  | _ =>
    if isBlank c then ⟨none, countWhile isBlank cs⟩
    else if isIdentStart c then
      let n := countWhile isIdentRest cs
      ⟨some (.ok (.ident (String.ofList (c :: cs.take n)))), n⟩
    else if isDigit c then
      let n := countWhile isDigit cs
      ⟨some (intToken (c :: cs.take n)), n⟩
    else unexpected

/-- The tokens of a text with their places, and the place behind its last character. -/
def tokenizeFrom (place : Place) : List Char →
    Except (Place × LexicalError) (List (Place × Token) × Place)
  | [] => .ok ([], place)
  | c :: cs =>
    let found := scan c cs
    let next := place.after (c :: cs.take found.more)
    match found.token with
    | none => tokenizeFrom next (cs.drop found.more)
    | some (.error cause) => .error (place, cause)
    | some (.ok token) =>
      (tokenizeFrom next (cs.drop found.more)).map fun r => ((place, token) :: r.1, r.2)
  termination_by cs => cs.length
  decreasing_by all_goals simp only [List.length_drop, List.length_cons]; omega

def tokenize (source : String) :
    Except (Place × LexicalError) (List (Place × Token) × Place) :=
  tokenizeFrom Place.first source.toList

end IncrementalLR.GrammarText
