import IncrementalLR.Ttcn3.Notation

/-!
# Statements of TTCN-3

Blocks, assignments, jumps, loops, selections and alternatives.
-/

namespace IncrementalLR.Ttcn3

open Rule

/-- Blocks and simple statements. -/
def blockRules : List (String × Rule) := [
  ("block",
    seq [
      symbol "_basic_block",
      field "catches" (zeroOrMore (symbol "catch_clause")),
      field "finally" (opt (symbol "finally_clause"))]),
  ("_basic_block", seq [literal "\x7b", withSemicolons (symbol "_statement"), literal "\x7d"]),
  ("catch_clause", seq [literal "catch", symbol "_basic_block"]),
  ("finally_clause", seq [literal "finally", symbol "_basic_block"]),
  ("_statement",
    choice ([
      "block", "reference", "redirection_expr", "assignment", "var_decl", "timer_decl",
      "port_decl", "const_decl", "template", "label_stmt", "goto_stmt", "break_stmt",
      "continue_stmt", "return_stmt", "if_stmt", "select_stmt", "select_union_stmt",
      "select_class_stmt", "select_type_stmt", "for_stmt", "for_range_stmt", "while_stmt",
      "do_while_stmt", "alt_stmt", "interleave_stmt"].map symbol)),
  ("_init_stmt",
    choice (["assignment", "var_decl", "timer_decl", "port_decl", "const_decl", "template"].map symbol)),
  ("assignment",
    seq [field "left" (symbol "reference"), literal ":=", field "right" (symbol "_expression")]),
  ("redirection_expr",
    seq [
      symbol "reference", literal "->",
      keywordClause "value" ["value"] (symbol "_expression"),
      keywordClause "sender" ["sender"] (symbol "_expression"),
      keywordClause "verdict" ["verdict"] (symbol "_expression"),
      keywordClause "param" ["param"] (symbol "_expression"),
      keywordClause "timestamp" ["timestamp"] (symbol "_expression"),
      keywordClause "index" ["@index", "value"] (symbol "_expression")]),
  ("label_stmt", seq [literal "label", symbol "name"]),
  ("goto_stmt", seq [literal "goto", symbol "name"]),
  ("break_stmt", seq [literal "break", opt (symbol "name")]),
  ("continue_stmt", seq [literal "continue", opt (symbol "name")]),
  ("return_stmt", seq [literal "return", opt (symbol "_expression")])]

/-- Conditions, loops and selections. -/
def controlRules : List (String × Rule) := [
  ("if_stmt",
    seq [
      literal "if", literal "(", initField,
      field "condition" (symbol "_expression"),
      literal ")", field "then" (symbol "block"),
      field "else" (opt (seq [literal "else", choice [symbol "if_stmt", symbol "block"]]))]),
  ("for_stmt",
    seq [
      literal "for", literal "(",
      field "init" (opt (symbol "_init_stmt")),
      literal ";",
      field "condition" (opt (symbol "_expression")),
      literal ";",
      field "post" (opt (symbol "assignment")),
      literal ")", field "body" (symbol "block")]),
  ("for_range_stmt",
    seq [
      literal "for", literal "(",
      field "iterator" (seq [
        opt (literals ["var", "const"]), opt (symbol "nested_type"), symbol "name"]),
      literal "in", field "range" (symbol "_expression"), literal ")",
      field "body" (symbol "block")]),
  ("while_stmt",
    seq [
      literal "while", literal "(", initField,
      field "condition" (symbol "_expression"),
      literal ")", field "body" (symbol "block")]),
  ("do_while_stmt",
    seq [
      literal "do", field "body" (symbol "block"), literal "while", literal "(",
      field "condition" (symbol "_expression"),
      literal ")"]),
  ("select_stmt", selectLike none),
  ("select_union_stmt", selectLike (some "union")),
  ("select_class_stmt", selectLike (some "class")),
  ("select_type_stmt", selectLike (some "type")),
  ("select_case_clause",
    seq [
      literal "case", literal "(",
      field "values" (commaSep1 (symbol "_expression")),
      literal ")", field "body" (symbol "block")]),
  ("select_else_clause", seq [literal "case", literal "else", field "body" (symbol "block")])]

/-- Alternatives and their guards. -/
def alternativeRules : List (String × Rule) := [
  ("alt_stmt", altLike "alt"),
  ("interleave_stmt", altLike "interleave"),
  ("alt_block",
    seq [
      symbol "_basic_alt_block",
      field "catches" (zeroOrMore (symbol "catch_clause")),
      field "finally" (opt (symbol "finally_clause"))]),
  ("_basic_alt_block",
    seq [
      literal "\x7b",
      withSemicolons (choice ([
        "var_decl", "const_decl", "timer_decl", "port_decl", "template", "guarded_stmt",
        "guarded_else_stmt"].map symbol)),
      literal "\x7d"]),
  ("guarded_stmt",
    seq [
      literal "[",
      field "condition" (opt (symbol "_expression")),
      literal "]",
      field "stmt" (symbol "_communication_stmt"),
      field "body" (opt (symbol "block"))]),
  ("_communication_stmt", choice [symbol "reference", symbol "redirection_expr"]),
  ("guarded_else_stmt",
    seq [literal "[", literal "else", literal "]", field "body" (symbol "block")])]

end IncrementalLR.Ttcn3
