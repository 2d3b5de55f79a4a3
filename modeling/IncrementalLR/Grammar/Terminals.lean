import IncrementalLR.Grammar.Basic
import IncrementalLR.Grammar.Error
import IncrementalLR.Pattern.Automaton
import Std.Data.HashMap

/-!
# Terminals of a grammar

A rule that is lexical as a whole defines a named token. Literals and patterns inside other rules
become anonymous tokens, one for each text.
-/

namespace IncrementalLR

/-- Numbers one more symbol. The largest number is kept for `Symbol.error`. -/
def addSymbol (symbols : Array SymbolInfo) (info : SymbolInfo) :
    Except Malformed (Symbol × Array SymbolInfo) :=
  if symbols.size ≥ 65535 then .error (.tooManySymbols (symbols.size + 1))
  else .ok (Symbol.ofIndex symbols.size, symbols.push info)

mutual

/-- The pattern of what a lexical expression matches. A lexical expression refers to no symbol. -/
def tokenSource (owner : String) : Rule → Except Malformed String
  | .blank => .ok ""
  | .literal text => .ok (Pattern.literalSource text)
  | .pattern source => .ok ("(?:" ++ source ++ ")")
  | .seq items => do return String.join (← tokenSources owner items)
  | .choice items => do return "(?:" ++ "|".intercalate (← tokenSources owner items) ++ ")"
  | .zeroOrMore body => do return "(?:" ++ (← tokenSource owner body) ++ ")*"
  | .oneOrMore body => do return "(?:" ++ (← tokenSource owner body) ++ ")+"
  | .optional body => do return "(?:" ++ (← tokenSource owner body) ++ ")?"
  | .ranked _ _ body => tokenSource owner body
  | .weighted _ body => tokenSource owner body
  | .field _ body => tokenSource owner body
  | .token body => tokenSource owner body
  | .symbol name =>
    .error (.invalidPattern owner ("a token cannot reference the symbol `" ++ name ++ "`"))

def tokenSources (owner : String) : List Rule → Except Malformed (List String)
  | [] => .ok []
  | item :: items => do
    let source ← tokenSource owner item
    return source :: (← tokenSources owner items)

end

/-- The pattern of a rule that is lexical as a whole, and its text if it is a literal. -/
def lexicalSource? (owner : String) : Rule → Except Malformed (Option (String × Option String))
  | .literal text => .ok (some (Pattern.literalSource text, some text))
  | .pattern source => .ok (some (source, none))
  | .token body => do
    let text := match body with
      | .literal text => some text
      | _ => none
    return some (← tokenSource owner body, text)
  | _ => .ok none

/-- The terminals found so far. -/
structure Terminals where
  symbols : Array SymbolInfo
  tokens : Array TokenDef := #[]
  /-- the texts of literals, by ascending symbol -/
  literalTexts : List (Symbol × String) := []
  /-- the symbols of names -/
  names : Std.HashMap String Symbol := {}
  /-- the symbols of literals inside rules -/
  literals : Std.HashMap String Symbol := {}
  /-- the symbols of patterns inside rules -/
  patterns : Std.HashMap String Symbol := {}
  /-- the number of pattern tokens of the rule under way -/
  patternCount : Nat := 0
  deriving Inhabited

namespace Terminals

/-- The end of input alone. -/
def initial : Terminals := { symbols := #[⟨"end", .terminal, false, false, false⟩] }

/-- Names that start with an underscore are hidden. -/
def isVisibleName (name : String) : Bool := !name.startsWith "_"

/-- A rule that is lexical as a whole defines a named token. -/
def addLexicalRule (t : Terminals) (name : String) (body : Rule) : Except Malformed Terminals := do
  match ← lexicalSource? name body with
  | none => return t
  | some (source, text) =>
    let (symbol, symbols) ← addSymbol t.symbols ⟨name, .terminal, isVisibleName name, true, false⟩
    return { t with
      symbols := symbols
      names := t.names.insert name symbol
      literalTexts := match text with
        | some text => t.literalTexts ++ [(symbol, text)]
        | none => t.literalTexts
      tokens := t.tokens.push ⟨symbol, source, text.isSome⟩ }

/-- A literal inside a rule; equal texts are one token. -/
def addLiteral (t : Terminals) (text : String) : Except Malformed Terminals :=
  if t.literals.contains text then .ok t
  else do
    let (symbol, symbols) ← addSymbol t.symbols ⟨text, .terminal, true, false, false⟩
    return { t with
      symbols := symbols
      literals := t.literals.insert text symbol
      literalTexts := t.literalTexts ++ [(symbol, text)]
      tokens := t.tokens.push ⟨symbol, Pattern.literalSource text, true⟩ }

/-- A pattern inside a rule; equal patterns are one token, named for the rule that has it first. -/
def addPattern (t : Terminals) (owner source : String) : Except Malformed Terminals :=
  if t.patterns.contains source then .ok t
  else do
    let name := owner ++ "_token" ++ toString (t.patternCount + 1)
    let (symbol, symbols) ← addSymbol t.symbols ⟨name, .terminal, false, false, false⟩
    return { t with
      symbols := symbols
      patterns := t.patterns.insert source symbol
      patternCount := t.patternCount + 1
      tokens := t.tokens.push ⟨symbol, source, false⟩ }

mutual

/-- Adds the literals and patterns inside a rule, in the order in which they are written. -/
def addInline (owner : String) (t : Terminals) : Rule → Except Malformed Terminals
  | .literal text => t.addLiteral text
  | .pattern source => t.addPattern owner source
  | .token (.literal text) => t.addLiteral text
  | .token body => do t.addPattern owner (← tokenSource owner body)
  | .seq items => addInlineAll owner t items
  | .choice items => addInlineAll owner t items
  | .zeroOrMore body => addInline owner t body
  | .oneOrMore body => addInline owner t body
  | .optional body => addInline owner t body
  | .ranked _ _ body => addInline owner t body
  | .weighted _ body => addInline owner t body
  | .field _ body => addInline owner t body
  | .blank => .ok t
  | .symbol _ => .ok t

def addInlineAll (owner : String) (t : Terminals) : List Rule → Except Malformed Terminals
  | [] => .ok t
  | item :: items => do addInlineAll owner (← addInline owner t item) items

end

/-- The tokens inside a rule that is not lexical as a whole. -/
def addSyntacticRule (t : Terminals) (name : String) (body : Rule) : Except Malformed Terminals :=
  if body.isLexical then .ok t else addInline name { t with patternCount := 0 } body

/-- A token of the external scanner. -/
def addExternal (t : Terminals) (name : String) : Except Malformed (Symbol × Terminals) := do
  let (symbol, symbols) ← addSymbol t.symbols ⟨name, .external, isVisibleName name, true, false⟩
  return (symbol, { t with symbols := symbols, names := t.names.insert name symbol })

end Terminals

end IncrementalLR
