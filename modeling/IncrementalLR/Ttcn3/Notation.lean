import IncrementalLR.Grammar.Rule

/-!
# Notation for the grammar of TTCN-3

Shapes that many rules of the grammar share.
-/

namespace IncrementalLR.Ttcn3

open Rule

/-! Precedence of operators, the tightest first. -/

def Level.primary : Int32 := 150
def Level.unary : Int32 := 145
def Level.multiplicative : Int32 := 140
def Level.additive : Int32 := 130
def Level.bitwiseNot : Int32 := 120
def Level.bitwiseAnd : Int32 := 110
def Level.bitwiseXor : Int32 := 100
def Level.bitwiseOr : Int32 := 90
def Level.shift : Int32 := 80
def Level.relational : Int32 := 70
def Level.equality : Int32 := 60
def Level.logicalNot : Int32 := 50
def Level.logicalAnd : Int32 := 40
def Level.logicalXor : Int32 := 30
def Level.logicalOr : Int32 := 20

def opt (body : Rule) : Rule := Rule.optional body

def leftOperator (level : Int32) (body : Rule) : Rule := ranked level (some .left) body

def rightOperator (level : Int32) (body : Rule) : Rule := ranked level (some .right) body

/-- One of several literals. -/
def literals (texts : List String) : Rule := choice (texts.map literal)

def commaSep (body : Rule) : Rule := sepBy (literal ",") body

def commaSep1 (body : Rule) : Rule := sepBy1 (literal ",") body

/-- Items with optional semicolons behind them. -/
def withSemicolons (body : Rule) : Rule := zeroOrMore (seq [body, opt (literal ";")])

def visibility : Rule := field "visibility" (opt (symbol "visibility"))

def attributes : Rule := field "attributes" (opt (symbol "attributes"))

def nameField : Rule := field "name" (symbol "name")

/-- An optional clause that keywords introduce. -/
def keywordClause (name : String) (keywords : List String) (body : Rule) : Rule :=
  field name (opt (seq (keywords.map literal ++ [body])))

def runsOn : Rule := keywordClause "runs_on" ["runs", "on"] (symbol "reference")

def extendsField : Rule := keywordClause "extends" ["extends"] (symbol "reference")

def exceptionField : Rule :=
  field "exception" (opt (seq [literal "exception", literal "(", symbol "references", literal ")"]))

/-- The component that runs a behaviour, and an optional system. -/
def runsOnSystem : Rule :=
  seq [
    field "runs_on" (seq [literal "runs", literal "on", symbol "reference"]),
    keywordClause "system" ["system"] (symbol "reference")]

def binary (level : Int32) (operators : Rule) : Rule :=
  leftOperator level (seq [
    field "left" (symbol "_expression"), field "operator" operators,
    field "right" (symbol "_expression")])

def unary (level : Int32) (operators : Rule) : Rule :=
  rightOperator level (seq [field "operator" operators, field "operand" (symbol "_expression")])

def structuredType (keyword : String) : Rule :=
  seq [
    visibility, literal "type", literal keyword, symbol "_parameterized_name", literal "\x7b",
    field "fields" (commaSep (symbol "field")), literal "\x7d", attributes]

def listType (keyword : String) : Rule :=
  seq [
    visibility, literal "type", literal keyword,
    field "length_constraint" (opt (symbol "length_spec")), literal "of",
    field "element_type" (symbol "nested_type"), symbol "_parameterized_name",
    field "element_value_constraint" (opt (symbol "template_values")),
    field "element_length_constraint" (opt (symbol "length_spec")), attributes]

/-- A declaration of several names of one type, which a template restriction may limit. -/
def declaration (keyword : String) (template : Bool) (typed : Rule) : Rule :=
  seq [
    visibility, literal keyword,
    if template then field "template_restriction" (opt (symbol "nested_template")) else blank,
    field "type" typed, field "declarators" (commaSep1 (symbol "declarator")), attributes]

def altLike (keyword : String) : Rule :=
  seq [
    literal keyword, field "nodefault" (opt (literal "@nodefault")),
    field "body" (symbol "alt_block")]

/-- A statement in front of a condition. -/
def initField : Rule := field "init" (opt (seq [symbol "_init_stmt", literal ";"]))

/-- A selection, with the keyword of its kind if it has one. -/
def selectLike (kind : Option String) : Rule :=
  seq [
    literal "select", (kind.map literal).getD blank, literal "(", initField,
    field "expression" (symbol "_expression"), literal ")", literal "\x7b",
    field "clauses"
      (oneOrMore (choice [symbol "select_case_clause", symbol "select_else_clause"])),
    literal "\x7d"]

def exceptBlock (spec : Rule) : Rule :=
  seq [literal "except", literal "\x7b", withSemicolons spec, literal "\x7d"]

/-- The kinds of definitions that an import may name. -/
def importKinds : List String :=
  ["type", "template", "const", "testcase", "altstep", "function", "signature", "modulepar"]

end IncrementalLR.Ttcn3
