import IncrementalLR.Pattern.Basic
import IncrementalLR.Text.Letter

/-!
# The notation of patterns

Reads the common notation of regular expressions: alternatives between bars, repetition operators
and counts, groups with names or flags, bracketed classes with set operations, escapes and
assertions. Patterns match bytes; a character outside ASCII stands for its bytes, and in a class it
is refused. Expressions nested too deeply are refused.
-/

namespace IncrementalLR.Pattern

/-- The settings that flags in a group change. -/
structure Flags where
  ignoreCase : Bool := false
  /-- the anchors match at lines -/
  multiLine : Bool := false
  /-- the dot matches a newline -/
  dotAll : Bool := false
  /-- a line may also end in a carriage return -/
  carriageReturn : Bool := false
  /-- blanks and comments in the pattern are passed over -/
  verbose : Bool := false
  deriving DecidableEq, Repr, Inhabited

/-- What is left to read, under which settings, and the group names in use. -/
structure Cursor where
  rest : List Char
  flags : Flags := {}
  names : List String := []
  deriving Inhabited

/-- Readers of patterns; a pattern that cannot be read gives no reason. -/
abbrev Parse := StateT Cursor Option

/-- A part of a pattern: its meaning and its nesting depth. A flag setting stands for nothing and
cannot be repeated. -/
structure Part where
  expr : Expr
  depth : Nat
  repeatable : Bool := true
  deriving Inhabited

/-- Patterns nested deeper than this are refused. -/
def nestLimit : Nat := 250

/-- Passes over blanks and comments. -/
def skipVerbose : Bool → List Char → List Char
  | _, [] => []
  | true, c :: rest => skipVerbose (c != '\n') rest
  | false, c :: rest =>
    if Text.isWhiteSpace c then skipVerbose false rest
    else if c = '#' then skipVerbose true rest
    else c :: rest

def skipSpace : Parse Unit :=
  modify fun s => if s.flags.verbose then { s with rest := skipVerbose false s.rest } else s

def peek? : Parse (Option Char) := return (← get).rest.head?

/-- The character under the cursor; there has to be one. -/
def peek : Parse Char := do
  match (← get).rest with
  | c :: _ => return c
  | [] => failure

/-- Moves past the character under the cursor. -/
def bump : Parse Unit := modify fun s => { s with rest := s.rest.drop 1 }

def bumpSpace : Parse Unit := do bump; skipSpace

/-- Moves past a fixed text if it is there. -/
def bumpIf (text : String) : Parse Bool := do
  let s ← get
  if text.toList.isPrefixOf s.rest then
    set { s with rest := s.rest.drop text.length }
    return true
  else return false

def isHexDigit (c : Char) : Bool :=
  c.isDigit || ('a' ≤ c && c ≤ 'f') || ('A' ≤ c && c ≤ 'F')

def hexValue (cs : List Char) : Nat :=
  cs.foldl (fun n c =>
    16 * n + (if c.isDigit then c.toNat - 48 else if c.toNat < 97 then c.toNat - 55
      else c.toNat - 87)) 0

/-- The character of a code point, unless it is a surrogate or too large. -/
def scalar? (n : Nat) : Option Char :=
  if h : n.isValidChar then some (Char.ofNatAux n h) else none

/-- What one escape or character stands for. -/
inductive Primitive where
  | char (c : Char)
  /-- a byte given by two hexadecimal digits -/
  | byte (b : UInt8)
  | set (s : ByteSet)
  | dot
  | look (assertion : Look)
  deriving Inhabited

/-- Hexadecimal digits of a fixed number. -/
def hexDigits : Nat → Parse (List Char)
  | 0 => return []
  | n + 1 => do
    let c ← peek
    guard (isHexDigit c)
    bumpSpace
    return c :: (← hexDigits n)

/-- Hexadecimal digits up to a closing brace, which is passed; the fuel is the text that is left. -/
def bracedHexDigits : Nat → Parse (List Char)
  | 0 => failure
  | fuel + 1 => do
    let c ← peek
    if c = '\x7d' then
      bumpSpace
      return []
    guard (isHexDigit c)
    bumpSpace
    return c :: (← bracedHexDigits fuel)

/-- A character given by its code point, behind the letter that says how many digits it has. -/
def hexEscape (width : Nat) : Parse Primitive := do
  bumpSpace
  if (← peek) = '\x7b' then
    bumpSpace
    let digits ← bracedHexDigits ((← get).rest.length + 1)
    guard (!digits.isEmpty)
    return .char (← liftM (scalar? (hexValue digits)))
  else
    let digits ← hexDigits width
    let n := hexValue digits
    if width = 2 then
      return if n < 128 then .char (Char.ofNat n) else .byte n.toUInt8
    return .char (← liftM (scalar? n))

def isSpecialWordChar (c : Char) : Bool := c.isAlpha || c == '-'

/-- Letters and dashes, with blanks passed over as the settings allow. -/
def specialWordChars : Nat → Parse (List Char)
  | 0 => return []
  | fuel + 1 => do
    match ← peek? with
    | some c =>
      if isSpecialWordChar c then
        bumpSpace
        return c :: (← specialWordChars fuel)
      else return []
    | none => return []

/-- The name of a word boundary up to its closing brace, which is passed. -/
def boundaryName : Parse Look := do
  let name ← specialWordChars ((← get).rest.length + 1)
  guard ((← peek) = '\x7d')
  bump
  match String.ofList name with
  | "start" => return .wordStart
  | "end" => return .wordStop
  | "start-half" => return .wordStartHalf
  | "end-half" => return .wordStopHalf
  | _ => failure

/-- The name in braces behind a word boundary, if one stands there and is no count. -/
def specialBoundary : Parse Look := do
  let before ← get
  if before.rest.head? = some '\x7b' then
    bumpSpace
    if isSpecialWordChar (← peek) then boundaryName
    else
      set before
      return .wordBoundary
  else return .wordBoundary

/-- Whether a backslash may stand before a character that needs none. -/
def isEscapable (c : Char) : Bool := c.toNat < 128 && !c.isAlphanum && c != '<' && c != '>'

/-- The set of a class letter; the capital letter stands for the other bytes. -/
def letterClass? : Char → Option ByteSet
  | 'd' => some ByteSet.digits
  | 's' => some ByteSet.spaces
  | 'w' => some ByteSet.wordBytes
  | 'D' => some ByteSet.digits.compl
  | 'S' => some ByteSet.spaces.compl
  | 'W' => some ByteSet.wordBytes.compl
  | _ => none

/-- An escape, from its backslash on. -/
def escape : Parse Primitive := do
  bump
  let c ← peek
  match c with
  | 'x' => hexEscape 2
  | 'u' => hexEscape 4
  | 'U' => hexEscape 8
  | _ =>
    bump
    match letterClass? c with
    | some s => return .set s
    | none =>
      if isEscapable c then return .char c
      match c with
      | 'a' => return .char '\x07'
      | 'f' => return .char '\x0c'
      | 't' => return .char '\t'
      | 'n' => return .char '\n'
      | 'r' => return .char '\r'
      | 'v' => return .char '\x0b'
      | 'A' => return .look .start
      | 'z' => return .look .stop
      | 'b' => return .look (← specialBoundary)
      | 'B' => return .look .noWordBoundary
      | '<' => return .look .wordStart
      | '>' => return .look .wordStop
      | _ => failure

/-- One character or escape outside a class. -/
def primitive : Parse Primitive := do
  let flags := (← get).flags
  match ← peek with
  | '\\' => escape
  | '.' => bump; return .dot
  | '^' =>
    bump
    return .look (if !flags.multiLine then .start
      else if flags.carriageReturn then .startLineCR else .startLine)
  | '$' =>
    bump
    return .look (if !flags.multiLine then .stop
      else if flags.carriageReturn then .stopLineCR else .stopLine)
  | c => bump; return .char c

/-- The meaning of a primitive outside a class. -/
def Primitive.expr (flags : Flags) : Primitive → Expr
  | char c =>
    if c.isAlpha ∧ flags.ignoreCase then
      .byte (ByteSet.singleton c.toNat.toUInt8).foldCase
    else Expr.ofBytes (c.toString.toUTF8.data.toList)
  | byte b => .byte (ByteSet.singleton b)
  | set s => .byte s
  | dot =>
    let lineBytes := if flags.carriageReturn then ByteSet.ofRanges [(10, 10), (13, 13)]
      else ByteSet.singleton 10
    .byte (if flags.dotAll then ByteSet.empty.compl else lineBytes.compl)
  | look assertion => .look assertion

/-- An element of a class: what it stands for, with the code point that serves as the end of a
range. -/
structure ClassItem where
  set : ByteSet
  /-- the code point and the byte of a literal -/
  literal : Option (Nat × UInt8) := none

/-- The meaning of a primitive inside a class. -/
def Primitive.classItem? : Primitive → Option ClassItem
  | char c =>
    if c.toNat < 128 then
      some ⟨ByteSet.singleton c.toNat.toUInt8, some (c.toNat, c.toNat.toUInt8)⟩
    else none
  | byte b => some ⟨ByteSet.singleton b, some (b.toNat, b)⟩
  | set s => some ⟨s, none⟩
  | dot | look _ => none

/-- One character or escape of a class. -/
def classPrimitive : Parse Primitive := do
  match ← peek with
  | '\\' => escape
  | c => bump; return .char c

/-- The first character that is neither blank nor the sign that starts a comment. -/
def firstInked : Bool → List Char → Option Char
  | _, [] => none
  | inComment, c :: rest =>
    if Text.isWhiteSpace c then firstInked inComment rest
    else if !inComment && c == '#' then firstInked true rest
    else some c

/-- The character behind the one under the cursor; blanks between them are passed over as the
settings allow. -/
def Cursor.behind (s : Cursor) : Option Char :=
  let rest := s.rest.drop 1
  if s.flags.verbose then (firstInked false rest).or rest.head? else rest.head?

def peekBehind : Parse (Option Char) := return (← get).behind

/-- An element or a range of a class, from behind its first part on. -/
def rangeFrom (first : Primitive) : Parse ByteSet := do
  skipSpace
  let next ← peek
  let behind ← peekBehind
  let some item := first.classItem? | failure
  if next ≠ '-' ∨ behind = some ']' ∨ behind = some '-' then return item.set
  bumpSpace
  let second ← classPrimitive
  let some last := second.classItem? | failure
  let some (lo, loByte) := item.literal | failure
  let some (hi, hiByte) := last.literal | failure
  guard (lo ≤ hi)
  return ByteSet.range loByte hiByte

/-- An element or a range of a class. -/
def classRange : Parse ByteSet := do rangeFrom (← classPrimitive)

/-- A name up to a colon and a closing bracket, and the text behind them. -/
def className? (rest : List Char) : Option (String × List Char) :=
  let name := rest.takeWhile (· != ':')
  match rest.drop name.length with
  | ':' :: ']' :: rest => some (String.ofList name, rest)
  | _ => none

/-- A named class in brackets of its own, if one starts at the bracket under the cursor. -/
def namedClass? (ignoreCase : Bool) (rest : List Char) : Option (ByteSet × List Char) := do
  guard (['[', ':'].isPrefixOf rest)
  let negated := rest[2]? == some '^'
  let (name, rest) ← className? (rest.drop (if negated then 3 else 2))
  let set ← ByteSet.ofName? name
  let set := if ignoreCase then set.foldCase else set
  return (if negated then set.compl else set, rest)

/-- Moves past a named class if one is there. -/
def namedClass : Parse (Option ByteSet) := do
  let s ← get
  match namedClass? s.flags.ignoreCase s.rest with
  | some (found, rest) =>
    set { s with rest := rest }
    return some found
  | none => return none

inductive ClassOp where
  | inter
  | diff
  | symmDiff
  deriving DecidableEq, Repr, Inhabited

def ClassOp.apply : ClassOp → ByteSet → ByteSet → ByteSet
  | inter => ByteSet.inter
  | diff => ByteSet.diff
  | symmDiff => ByteSet.symmDiff

/-- The operation whose two signs stand here. -/
def classOp? : List Char → Option ClassOp
  | '&' :: '&' :: _ => some .inter
  | '-' :: '-' :: _ => some .diff
  | '~' :: '~' :: _ => some .symmDiff
  | _ => none

/-- Moves past the signs of an operation if they are there. -/
def classOp : Parse (Option ClassOp) := do
  let op := classOp? (← get).rest
  if op.isSome then
    bump
    bump
  return op

/-- A side of a set operation: its bytes and its nesting depth. -/
structure ClassPart where
  set : ByteSet := ByteSet.empty
  depth : Nat := 0
  /-- the number of elements -/
  count : Nat := 0
  deriving Inhabited

namespace ClassPart

def push (p : ClassPart) (set : ByteSet) (depth : Nat) : ClassPart :=
  ⟨p.set.union set, max p.depth depth, p.count + 1⟩

/-- The depth with the union around several elements counted. -/
def unionDepth (p : ClassPart) : Nat := if p.count ≤ 1 then p.depth else p.depth + 1

/-- The operation of a pending left side with a finished right side; letters lose their case first
when the settings ask for it. -/
def combine (ignoreCase : Bool) (left : Option (ClassPart × ClassOp)) (right : ClassPart) :
    ClassPart :=
  let right : ClassPart := ⟨right.set, right.unionDepth, 1⟩
  match left with
  | none => right
  | some (left, op) =>
    let fold (s : ByteSet) := if ignoreCase then s.foldCase else s
    ⟨op.apply (fold left.set) (fold right.set), max left.depth right.depth + 1, 1⟩

end ClassPart

/-- The dashes, or the bracket, that stand for themselves at the front of a class. -/
def leadingDashes : Nat → ClassPart → Parse ClassPart
  | 0, p => return p
  | fuel + 1, p => do
    if (← peek) = '-' then
      bumpSpace
      leadingDashes fuel (p.push (ByteSet.singleton 45) 0)
    else return p

/-- Moves past a caret if it is there. -/
def caret : Parse Bool := do
  if (← peek) = '^' then
    bumpSpace
    return true
  else return false

/-- The dashes and the bracket that stand for themselves at the front of a class. -/
def classFront : Parse ClassPart := do
  let part ← leadingDashes ((← get).rest.length + 1) {}
  if (← peek) = ']' ∧ part.count = 0 then
    bumpSpace
    let _ ← peek
    return part.push (ByteSet.singleton 93) 0
  else return part

mutual

/-- A bracketed class, from its opening bracket on; the first argument bounds the depth of calls. -/
def bracketed : Nat → Parse (ByteSet × Nat)
  | 0 => failure
  | fuel + 1 => do
    bumpSpace
    let negated ← caret
    let part ← classFront
    let ignoreCase := (← get).flags.ignoreCase
    let whole ← classItems fuel none part
    let set := if ignoreCase then whole.set.foldCase else whole.set
    return (if negated then set.compl else set, whole.depth + 1)

/-- The elements and operations of a class up to its closing bracket, which is passed. -/
def classItems : Nat → Option (ClassPart × ClassOp) → ClassPart → Parse ClassPart
  | 0, _, _ => failure
  | fuel + 1, left, part => do
    skipSpace
    let ignoreCase := (← get).flags.ignoreCase
    match ← peek with
    | '[' =>
      match ← namedClass with
      | some set => classItems fuel left (part.push set 0)
      | none =>
        let (set, depth) ← bracketed fuel
        classItems fuel left (part.push set depth)
    | ']' =>
      bump
      return ClassPart.combine ignoreCase left part
    | _ =>
      match ← classOp with
      | some op => classItems fuel (some (ClassPart.combine ignoreCase left part, op)) {}
      | none =>
        let set ← classRange
        classItems fuel left (part.push set 0)

end

/-- A decimal number with blanks around it. -/
def decimalDigits : Nat → Parse (List Char)
  | 0 => return []
  | fuel + 1 => do
    match ← peek? with
    | some c =>
      if c.isDigit then
        bumpSpace
        return c :: (← decimalDigits fuel)
      else return []
    | none => return []

def skipBlanks : Parse Unit := modify fun s => { s with rest := s.rest.dropWhile Text.isWhiteSpace }

/-- Blanks, a decimal number of 32 bits and blanks. -/
def decimal : Parse Nat := do
  skipBlanks
  let digits ← decimalDigits ((← get).rest.length + 1)
  skipBlanks
  skipSpace
  skipBlanks
  guard (!digits.isEmpty)
  let n := digits.foldl (fun n c => 10 * n + (c.toNat - 48)) 0
  guard (n < 4294967296)
  return n

/-- The counts of a repetition, whose least one has been read: least and most. -/
def countsFrom (least : Nat) : Parse (Nat × Option Nat) := do
  if (← peek) = ',' then
    bumpSpace
    if (← peek) = '\x7d' then return (least, none)
    let most ← decimal
    guard (least ≤ most)
    return (least, some most)
  else return (least, some least)

/-- The counts of a repetition in braces, from behind the opening brace on. -/
def countsInside : Parse (Nat × Option Nat) := do
  let _ ← peek
  let range ← countsFrom (← decimal)
  guard ((← peek) = '\x7d')
  bumpSpace
  return range

/-- The counts of a repetition in braces, from the opening brace on. -/
def counts : Parse (Nat × Option Nat) := do
  bumpSpace
  countsInside

/-- What is read behind the opening parenthesis of a group. -/
inductive GroupHead where
  /-- settings for the rest of the enclosing group -/
  | settings (flags : Flags)
  | group (flags : Flags)

def isNameChar (first : Bool) (c : Char) : Bool :=
  c == '_' || Text.isLetter c ||
    (!first && (c == '.' || c == '[' || c == ']' || Text.isLetterOrNumber c))

/-- A group name that is not in use, up to its closing angle bracket, and the text behind that. -/
def groupName? (names : List String) (rest : List Char) : Option (String × List Char) := do
  let name := rest.takeWhile (· != '>')
  let rest := rest.drop name.length
  guard (!rest.isEmpty && !name.isEmpty)
  guard (isNameChar true (name.headD ' ') && name.all (isNameChar false))
  guard (!names.contains (String.ofList name))
  return (String.ofList name, rest.drop 1)

def groupName : Parse Unit := do
  let s ← get
  let (name, rest) ← liftM (groupName? s.names s.rest)
  set { s with rest := rest, names := name :: s.names }

/-- Sets or clears the setting of a flag letter. `U` swaps greedy and lazy repetitions, which no
longest match can tell apart. `u` asks for Unicode classes; patterns are read over bytes, without
their tables, so it changes nothing here. -/
def Flags.assign (flags : Flags) (value : Bool) : Char → Flags
  | 'i' => { flags with ignoreCase := value }
  | 'm' => { flags with multiLine := value }
  | 's' => { flags with dotAll := value }
  | 'R' => { flags with carriageReturn := value }
  | 'x' => { flags with verbose := value }
  | _ => flags

/-- Flag letters up to a colon or a closing parenthesis, which is not passed: the settings and the
letters seen. No letter comes twice, and a dash is not last. -/
def flagLetters : Nat → Bool → List Char → Flags → Parse (Flags × List Char)
  | 0, _, _, _ => failure
  | fuel + 1, value, seen, flags => do
    let c ← peek
    if c = ':' ∨ c = ')' then
      guard (seen.head? ≠ some '-')
      return (flags, seen)
    guard (!seen.contains c && ['-', 'i', 'm', 's', 'U', 'u', 'R', 'x'].contains c)
    bump
    if c = '-' then flagLetters fuel false (c :: seen) flags
    else flagLetters fuel value (c :: seen) (flags.assign value c)

/-- How assertions about the text around start. They are refused. -/
def lookSigns : List String := ["?=", "?!", "?<=", "?<!"]

def refuseLooks : Parse Unit := do
  let s ← get
  guard (lookSigns.all fun sign => !sign.toList.isPrefixOf s.rest)

/-- Moves past what stands before a group name if it is there. -/
def bumpNameSign : Parse Bool := do
  if ← bumpIf "?P<" then return true
  else bumpIf "?<"

/-- The flags of a group with the colon or the closing parenthesis behind them. -/
def groupFlags (flags : Flags) : Parse GroupHead := do
  let (flags, letters) ← flagLetters ((← get).rest.length + 1) true [] flags
  if (← peek) = ')' then
    guard (!letters.isEmpty)
    bump
    return .settings flags
  else
    bump
    return .group flags

/-- The head of a group, from its opening parenthesis on. -/
def groupHead : Parse GroupHead := do
  let flags := (← get).flags
  bump
  skipSpace
  refuseLooks
  if ← bumpNameSign then
    groupName
    return .group flags
  else if ← bumpIf "?" then groupFlags flags
  else return .group flags

/-- Several parts one after the other, the last of them and then those before it, last first. -/
def joinParts (last : Part) (others : List Part) : Part :=
  others.foldl (fun whole part =>
    { expr := .concat part.expr whole.expr, depth := max whole.depth part.depth }) last

/-- A sequence of parts, given last part first. -/
def sequencePart : List Part → Part
  | [] => { expr := .empty, depth := 0 }
  | [part] => { part with repeatable := true }
  | last :: others =>
    let whole := joinParts last others
    { expr := whole.expr, depth := whole.depth + 1 }

/-- Alternatives, first of them first. -/
def alternativesOf : List Part → Part
  | [] => { expr := .empty, depth := 0 }
  | [part] => part
  | part :: parts =>
    let whole := parts.foldl (fun whole part =>
      { expr := .alt whole.expr part.expr, depth := max whole.depth part.depth : Part }) part
    { expr := whole.expr, depth := whole.depth + 1 }

/-- The sign behind a repetition that prefers few over many; what matches is the same. -/
def lazySuffix : Parse Unit := discard (bumpIf "?")

/-- Wraps the last part in a repetition. -/
def repeatLast (least : Nat) (most : Option Nat) : List Part → Parse (List Part)
  | part :: parts => do
    guard part.repeatable
    return ⟨.times least most part.expr, part.depth + 1, true⟩ :: parts
  | [] => failure

/-- The closing parenthesis of a group; the settings from before the group are in force again. -/
def groupEnd (before : Flags) : Parse Unit := do
  guard ((← peek) = ')')
  bump
  modify fun s => { s with flags := before }

/-- A group with the given reader of what is inside, from behind its head on. Settings hold for the
rest of the enclosing group. -/
def groupFrom (before : Flags) (inside : Parse (List Part)) : GroupHead → Parse Part
  | .settings flags => do
    modify fun s => { s with flags := flags }
    return ⟨.empty, 0, false⟩
  | .group flags => do
    modify fun s => { s with flags := flags }
    let inner := alternativesOf (← inside)
    groupEnd before
    return ⟨inner.expr, inner.depth + 1, true⟩

/-- A group with the given reader of what is inside, from its opening parenthesis on. -/
def group (inside : Parse (List Part)) : Parse Part := do
  let before := (← get).flags
  groupFrom before inside (← groupHead)

mutual

/-- Alternatives up to a closing parenthesis or the end; the first argument bounds the depth of
calls. Gives the alternatives that follow the first bar too. -/
def alternatives : Nat → Parse (List Part)
  | 0 => failure
  | fuel + 1 => do
    let part ← sequence fuel []
    if (← peek?) = some '|' then
      bump
      return part :: (← alternatives fuel)
    else return [part]

/-- Parts up to a bar, a closing parenthesis or the end; `parts` are those before, last first. -/
def sequence : Nat → List Part → Parse Part
  | 0, _ => failure
  | fuel + 1, parts => do
    skipSpace
    let flags := (← get).flags
    match ← peek? with
    | none | some ')' | some '|' => return sequencePart parts
    | some '(' =>
      let part ← group (alternatives fuel)
      sequence fuel (part :: parts)
    | some '[' =>
      let (set, depth) ← bracketed fuel
      sequence fuel (⟨.byte set, depth, true⟩ :: parts)
    | some '?' => bump; lazySuffix; sequence fuel (← repeatLast 0 (some 1) parts)
    | some '*' => bump; lazySuffix; sequence fuel (← repeatLast 0 none parts)
    | some '+' => bump; lazySuffix; sequence fuel (← repeatLast 1 none parts)
    | some '\x7b' =>
      let (least, most) ← counts
      lazySuffix
      sequence fuel (← repeatLast least most parts)
    | some _ =>
      let found ← primitive
      sequence fuel (⟨found.expr flags, 0, true⟩ :: parts)

end

/-- The expression of a pattern, if it is one. -/
def read? (source : String) : Option Expr := do
  let cs := source.toList
  let (parts, s) ← (alternatives (3 * cs.length + 3)).run ⟨cs, {}, []⟩
  let part := alternativesOf parts
  if s.rest.isEmpty ∧ part.depth ≤ nestLimit then return part.expr
  none

end IncrementalLR.Pattern
