import IncrementalLR.Grammar.Rule
import IncrementalLR.GrammarText.Phrase
import IncrementalLR.GrammarText.Token

/-!
# Declarations of a grammar file

A grammar file is a sequence of rules and directives, each closed by a semicolon. A body has
alternatives between bars; an alternative is a sequence of elements, an element an atom with postfix
operators behind an optional field label; an atom is a literal, a pattern, a name, a group or a call
of a builtin.
-/

namespace IncrementalLR.GrammarText

/-- A directive argument. -/
inductive Arg where
  | ident (name : String)
  | str (text : String)
  | regex (source : String)
  | int (value : Int)
  deriving DecidableEq, Repr, Inhabited

namespace Arg

def ofToken? : Token → Option Arg
  | .ident name => some (ident name)
  | .str text => some (str text)
  | .regex source => some (regex source)
  | .int value => some (int value)
  | _ => none

def toRule? : Arg → Option Rule
  | ident name => some (.symbol name)
  | str text => some (.literal text)
  | regex source => some (.pattern source)
  | int _ => none

def describe : Arg → String
  | ident name => "Ident(" ++ Text.quoted name ++ ")"
  | str text => "Str(" ++ Text.quoted text ++ ")"
  | regex source => "Regex(" ++ Text.quoted source ++ ")"
  | int value => "Int(" ++ toString value ++ ")"

end Arg

/-- A declaration of a grammar file; a directive keeps the number of tokens from its own to the end
of the file. -/
inductive Item where
  | rule (name : String) (body : Rule)
  | directive (name : String) (args : List Arg) (remaining : Nat)
  deriving Inhabited

/-- A builtin that wraps a rule. -/
inductive Builtin where
  | blank
  | token
  | prec
  | precLeft
  | precRight
  | precDynamic
  deriving DecidableEq, Repr, Inhabited

namespace Builtin

def ofName? : String → Option Builtin
  | "blank" => some blank
  | "token" => some token
  | "prec" => some prec
  | "prec_left" => some precLeft
  | "prec_right" => some precRight
  | "prec_dynamic" => some precDynamic
  | _ => none

/-- The rule of a call, if the arguments are those that the builtin takes. A body that reads as
blank counts as none. -/
def apply (builtin : Builtin) (level : Option Int) (body : Option Rule) : Option Rule :=
  let body := body.filter fun
    | .blank => false
    | _ => true
  match builtin, level, body with
  | blank, none, none => some .blank
  | token, none, some body => some (.token body)
  | prec, some n, some body => some (.ranked (Int32.ofInt n) none body)
  | precLeft, n, some body => some (.ranked (Int32.ofInt (n.getD 0)) (some .left) body)
  | precRight, n, some body => some (.ranked (Int32.ofInt (n.getD 0)) (some .right) body)
  | precDynamic, some n, some body => some (.weighted (Int32.ofInt n) body)
  | _, _, _ => none

end Builtin

/-- The rule of a sequence: no part is blank, and one part stands for itself. -/
def sequenceRule : List Rule → Rule
  | [] => .blank
  | [rule] => rule
  | rules => .seq rules

/-- The rule of alternatives: one alternative stands for itself. -/
def choiceRule : List Rule → Rule
  | [rule] => rule
  | rules => .choice rules

/-! ### Phrases -/

section Phrases

open Phrase

def ident : Phrase Token String := select fun
  | .ident name => some name
  | _ => none

def integer : Phrase Token Int := select fun
  | .int n => some n
  | _ => none

/-- A name that is called. -/
def builtinName : Phrase Token Builtin := select fun
  | .ident name => Builtin.ofName? name
  | _ => none

/-- An atom of a single token. -/
def plainAtom : Phrase Token Rule := select fun
  | .str text => some (.literal text)
  | .regex source => some (.pattern source)
  | .ident name => if Builtin.ofName? name = none then some (.symbol name) else none
  | _ => none

/-- What a postfix operator makes of the rule in front of it. -/
def postfixOperator : Phrase Token (Rule → Rule) := select fun
  | .star => some .zeroOrMore
  | .plus => some .oneOrMore
  | .question => some .optional
  | _ => none

def call (alternatives : Phrase Token Rule) : Phrase Token Rule :=
  ((((builtinName.thenIgnore (just .lparen)).andThen
    (integer.thenIgnore (just .comma)).orNot).andThen
      alternatives.orNot).thenIgnore (just .rparen)).tryMap
        fun ((builtin, level), body) => builtin.apply level body

def group (alternatives : Phrase Token Rule) : Phrase Token Rule :=
  alternatives.delimitedBy (just .lparen) (just .rparen)

def atom (alternatives : Phrase Token Rule) : Phrase Token Rule :=
  choice [call alternatives, group alternatives, plainAtom]

def postfixed (alternatives : Phrase Token Rule) : Phrase Token Rule :=
  (atom alternatives).foldl postfixOperator.repeated fun rule wrap => wrap rule

def element (alternatives : Phrase Token Rule) : Phrase Token Rule :=
  (((ident.thenIgnore (just .colon)).andThen (postfixed alternatives)).map
    fun (name, rule) => .field name rule).or (postfixed alternatives)

def sequence (alternatives : Phrase Token Rule) : Phrase Token Rule :=
  (element alternatives).repeated.map sequenceRule

/-- A body, with the phrase for the bodies inside it. -/
def bodyOver (alternatives : Phrase Token Rule) : Phrase Token Rule :=
  ((sequence alternatives).separatedBy (just .pipe)).map choiceRule

def body : Phrase Token Rule := recursive bodyOver

def rule : Phrase Token Item :=
  (((ident.thenIgnore (just .arrow)).andThen body).thenIgnore (just .semi)).map
    fun (name, body) => .rule name body

def arg : Phrase Token Arg := select Arg.ofToken?

def directiveName : Phrase Token String := select fun
  | .directive name => some name
  | _ => none

def directive : Phrase Token Item :=
  ((directiveName.withRemaining.andThen arg.repeated).thenIgnore (just .semi)).map
    fun ((name, remaining), args) => .directive name args remaining

def declarations : Phrase Token (List Item) :=
  (choice [directive, rule]).repeated.thenIgnore ending

end Phrases

/-- The declarations of a whole file. -/
def declarations? (ts : List Token) : Option (List Item) := (declarations ts).map (·.1)

end IncrementalLR.GrammarText
