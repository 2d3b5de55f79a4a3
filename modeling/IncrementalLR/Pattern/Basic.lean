import IncrementalLR.Pattern.ByteSet

/-!
# Patterns

Regular expressions over bytes, with assertions about the bytes around a place. The language of an
expression is the relation `Matches`: which part of a text an expression spans.
-/

namespace IncrementalLR.Pattern

/-- What is asserted of a place between two bytes. -/
inductive Look where
  | start
  | stop
  | startLine
  | stopLine
  /-- a line may also end in a carriage return -/
  | startLineCR
  | stopLineCR
  | wordBoundary
  | noWordBoundary
  | wordStart
  | wordStop
  | wordStartHalf
  | wordStopHalf
  deriving DecidableEq, Repr, Inhabited

def isWordByte (b : UInt8) : Bool := ByteSet.wordBytes.contains b

/-- Whether an assertion holds between the byte before and the byte after a place; at the ends of
the text there is none. -/
def Look.holds (look : Look) (before after : Option UInt8) : Bool :=
  let wordBefore := before.any isWordByte
  let wordAfter := after.any isWordByte
  match look with
  | start => before.isNone
  | stop => after.isNone
  | startLine => before.isNone || before == some 10
  | stopLine => after.isNone || after == some 10
  | startLineCR => before.isNone || before == some 10 || (before == some 13 && after != some 10)
  | stopLineCR => after.isNone || after == some 13 || (after == some 10 && before != some 13)
  | wordBoundary => wordBefore != wordAfter
  | noWordBoundary => wordBefore == wordAfter
  | wordStart => !wordBefore && wordAfter
  | wordStop => wordBefore && !wordAfter
  | wordStartHalf => !wordBefore
  | wordStopHalf => !wordAfter

inductive Expr where
  | empty
  | byte (set : ByteSet)
  | look (assertion : Look)
  | concat (first second : Expr)
  | alt (first second : Expr)
  /-- from `least` to `most` times the body, or any number from `least` on -/
  | times (least : Nat) (most : Option Nat) (body : Expr)
  deriving DecidableEq, Repr, Inhabited

/-- `Matches text i e j`: the bytes of the text from `i` to `j` match `e`. -/
inductive Expr.Matches (text : List UInt8) : Nat → Expr → Nat → Prop where
  | empty (i : Nat) : Matches text i .empty i
  | byte (i : Nat) (set : ByteSet) (b : UInt8) (hb : text[i]? = some b)
      (hset : set.contains b = true) : Matches text i (.byte set) (i + 1)
  | look (i : Nat) (assertion : Look)
      (h : assertion.holds (if i = 0 then none else text[i - 1]?) text[i]? = true) :
      Matches text i (.look assertion) i
  | concat (i j k : Nat) (a b : Expr) (ha : Matches text i a j) (hb : Matches text j b k) :
      Matches text i (.concat a b) k
  | first (i j : Nat) (a b : Expr) (h : Matches text i a j) : Matches text i (.alt a b) j
  | second (i j : Nat) (a b : Expr) (h : Matches text i b j) : Matches text i (.alt a b) j
  | none (i : Nat) (most : Option Nat) (e : Expr) : Matches text i (.times 0 most e) i
  | more (i j k least : Nat) (most : Option Nat) (e : Expr) (hmost : most ≠ some 0)
      (h : Matches text i e j) (hrest : Matches text j (.times (least - 1) (most.map (· - 1)) e) k) :
      Matches text i (.times least most e) k

namespace Expr

def ofBytes : List UInt8 → Expr
  | [] => empty
  | [b] => byte (ByteSet.singleton b)
  | b :: bs => concat (byte (ByteSet.singleton b)) (ofBytes bs)

/-- The number of automaton states that an expression takes. -/
def stateCount : Expr → Nat
  | empty => 1
  | byte _ => 1
  | look _ => 1
  | concat a b => a.stateCount + b.stateCount
  | alt a b => a.stateCount + b.stateCount + 1
  | times least most body =>
    match most with
    | none => (max least 1) * body.stateCount + 1
    | some most => max least most * (body.stateCount + 1) + 1

end Expr

end IncrementalLR.Pattern
