import IncrementalLR.Parse.Engine
import IncrementalLR.Tree.Edit

/-!
# Parsers

A parser makes trees of the texts of one language. It can use the tree of an earlier text: what an
edit left untouched is taken over, so that little is lexed and reduced again.
-/

namespace IncrementalLR

structure Parser where
  language : Language
  options : ParseOptions := {}
  strategy : RecoveryStrategy := RecoveryStrategy.fixed
  /-- every parse is stopped at once -/
  cancelled : Bool := false
  bases : RepetitionBases

/-- The result of a parse. -/
structure Parsed where
  tree : Tree
  stats : ParseStats
  /-- the next free number of subtrees -/
  nextId : Nat

namespace Parser

def ofLanguage (l : Language) : Parser :=
  { language := l, bases := RepetitionBases.ofTable l.table }

def setting (p : Parser) (text : ByteArray) : ParseSetting :=
  { language := p.language, options := p.options, strategy := p.strategy, cancelled := p.cancelled
    bases := p.bases, text := text }

/-- Parses a text, which is at hand unless there is an input from which to read it. -/
def parseFrom (p : Parser) (text : ByteArray) (input : Option Text.Input) (old : Option Tree)
    (id : Nat) : Parsed :=
  let usable := old.filter fun tree => tree.language.isSame p.language
  let start := ParseState.start p.language.table.startState
    (usable.map fun tree => ReuseCursor.ofRoot tree.root) id
  let (tree, s) := (p.setting text).run p.options.operationLimit { start with input := input }
  ⟨tree, s.stats, s.nextId⟩

/-- Parses a text. An old tree is used if it is of the same language; it must have been edited to
match the text. New subtrees are numbered from `id` on. -/
def parse (p : Parser) (text : ByteArray) (old : Option Tree) (id : Nat) : Parsed :=
  p.parseFrom text none old id

/-- Parses the text of an input. -/
def parseWith (p : Parser) (input : Text.Input) (old : Option Tree) (id : Nat) : Parsed :=
  p.parseFrom input.text (some input) old id

/-- Parses a text that came about by an edit, given the tree of the text before. -/
def reparse (p : Parser) (prior : Tree) (edit : InputEdit) (text : ByteArray) (id : Nat) : Parsed :=
  let (edited, next) := prior.edit edit id
  p.parse text (some edited) next

end Parser

end IncrementalLR
