import IncrementalLR.Ttcn3.Notation

/-!
# Expressions of TTCN-3

Operators with their precedence, literals and references.
-/

namespace IncrementalLR.Ttcn3

open Rule

/-- Expressions and operators. -/
def operatorRules : List (String × Rule) := [
  ("_expression",
    choice [
      symbol "unary_expression", symbol "binary_expression", literal "null", literal "omit",
      literal "-", symbol "boolean_literal", symbol "verdict_literal", symbol "number",
      symbol "charstring", symbol "bitstring", symbol "hexstring", symbol "octetstring",
      symbol "template_values", symbol "composite_literal", symbol "function_literal",
      symbol "inline_template", symbol "reference"]),
  ("unary_expression",
    choice [
      unary Level.unary (literals ["+", "-", "!", "++", "--"]),
      unary Level.bitwiseNot (literal "not4b"),
      unary Level.logicalNot (literal "not")]),
  ("binary_expression",
    choice [
      leftOperator Level.primary (seq [
        field "left" (symbol "reference"), field "operator" (literal "=>"),
        field "right" (symbol "_expression")]),
      binary Level.multiplicative (literals ["*", "/", "mod", "rem"]),
      binary Level.additive (literals ["+", "-", "&"]),
      binary Level.bitwiseAnd (literal "and4b"),
      binary Level.bitwiseXor (literal "xor4b"),
      binary Level.bitwiseOr (literal "or4b"),
      binary Level.shift (literals ["<<", ">>", "<@", "@>"]),
      binary Level.relational (literals ["<", ">", "<=", ">="]),
      binary Level.equality (literals ["==", "!="]),
      binary Level.logicalAnd (literal "and"), binary Level.logicalXor (literal "xor"),
      binary Level.logicalOr (literal "or")])]

/-- Composite values, inline templates and references. -/
def valueRules : List (String × Rule) := [
  ("template_values", seq [literal "(", commaSep1 (symbol "_expression"), literal ")"]),
  ("composite_literal", seq [literal "\x7b", commaSep (symbol "_expression"), literal "\x7d"]),
  ("function_literal",
    seq [
      literal "function",
      field "modifiers" (opt (symbol "modifiers")),
      field "parameters" (symbol "parameters"),
      symbol "_component_clauses",
      field "return_type" (opt (symbol "return_type")),
      exceptionField, field "body" (symbol "block")]),
  ("inline_template", seq [symbol "reference", literal ":", symbol "_expression"]),
  ("references", commaSep1 (symbol "reference")),
  ("reference",
    choice [
      symbol "type_instantiation_expression", symbol "selector_expression",
      symbol "index_expression", symbol "function_call_expression", symbol "_identifier",
      literal "this", literal "self", literal "???",
      seq [literals ["any", "all"], literals ["port", "timer", "component"]]]),
  ("type_instantiation_expression",
    seq [
      field "type" (symbol "_identifier"), literal "<", commaSep (symbol "nested_type"),
      literal ">"]),
  ("selector_expression",
    leftOperator Level.primary (seq [
      field "operand" (symbol "reference"), literal ".", field "field" (symbol "reference")])),
  ("index_expression",
    leftOperator Level.primary (seq [
      field "operand" (symbol "reference"), literal "[",
      field "index" (commaSep (symbol "_expression")),
      literal "]"])),
  ("function_call_expression",
    leftOperator Level.primary (choice [
      seq [
        field "function" (symbol "reference"), literal "(",
        field "arguments" (commaSep (symbol "_expression")),
        field "variadic" (opt (literal "...")), literal ")"],
      seq [
        field "function" (seq [literals ["any", "all"], literal "from"]),
        field "arguments" (symbol "reference")]]))]

/-- Names, modifiers and literals. -/
def tokenRules : List (String × Rule) := [
  ("modifiers", oneOrMore (symbol "modifier")),
  ("name", symbol "_identifier"),
  ("visibility", literals ["public", "private", "friend"]),
  ("boolean_literal", literals ["true", "false"]),
  ("verdict_literal", literals ["none", "pass", "inconc", "fail", "error"]),
  ("_identifier", pattern "[a-zA-Z_]\\w*"),
  ("modifier", pattern "@\\w+"),
  ("bitstring", pattern "'[01*? ]+'[bB]"),
  ("hexstring", pattern "'[0-9A-Fa-f*? ]+'[hH]"),
  ("octetstring", pattern "'[0-9A-Fa-f*? ]+'[oO]"),
  ("number", token (seq [pattern "\\d+(\\.\\d+)?", opt (pattern "[eE][+-]?[0-9][0-9_]*")])),
  ("comment",
    token (choice [
      seq [literal "//", pattern "[^\\n\\r]*"],
      seq [literal "/*", pattern "[^*]*\\*+([^/*][^*]*\\*+)*", literal "/"]]))]

end IncrementalLR.Ttcn3
