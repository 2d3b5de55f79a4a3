import IncrementalLR.Ttcn3.Notation

/-!
# Definitions of TTCN-3

Modules, groups, imports and the definitions of behaviour, data and types.
-/

namespace IncrementalLR.Ttcn3

open Rule

/-- Modules, groups and imports. -/
def moduleRules : List (String × Rule) := [
  ("source_file", choice [withSemicolons (symbol "_definition"), symbol "_expression"]),
  ("_definition",
    choice ([
      "altstep", "altstep_type", "class_type", "component_type", "configuration", "const_decl",
      "constructor", "control", "enumerated_type", "external_function", "friend", "func",
      "function_type", "group", "import_definition", "map_type", "mode_definition", "module",
      "module_parameter", "port_type", "record_of_type", "record_type", "set_of_type", "set_type",
      "signature", "subtype", "template", "testcase", "testcase_type", "union_type", "var_decl",
      "timer_decl", "port_decl"].map symbol)),
  ("module",
    seq [
      literal "module", symbol "_parameterized_name",
      field "language_spec" (opt (symbol "language_spec")),
      symbol "_definition_body", attributes]),
  ("group",
    seq [
      visibility, literal "group", symbol "_parameterized_name", symbol "_definition_body",
      attributes]),
  ("_definition_body",
    seq [literal "\x7b", withSemicolons (symbol "_definition"), literal "\x7d"]),
  ("_parameterized_name",
    seq [nameField, field "type_parameters" (opt (symbol "type_parameters"))]),
  ("_component_clauses",
    seq [
      runsOn,
      keywordClause "mtc" ["mtc"] (symbol "reference"),
      keywordClause "system" ["system"] (symbol "reference")]),
  ("import_definition",
    seq [
      visibility, literal "import", literal "from", field "module_id" (symbol "reference"),
      keywordClause "local_name" ["->"] (symbol "name"),
      field "body" (choice [
        seq [literal "all", opt (exceptBlock (symbol "except_spec"))],
        seq [literal "\x7b", withSemicolons (symbol "import_spec"), literal "\x7d"]]),
      attributes]),
  ("import_spec",
    choice [
      seq [
        field "kind" (literal "group"),
        commaSep1 (seq [symbol "reference", opt (exceptBlock (symbol "except_spec"))])],
      seq [
        field "kind" (choice [literals importKinds, literal "import"]),
        field "refs" (choice [
          symbol "references",
          seq [literal "all", opt (seq [literal "except", symbol "references"])]])]]),
  ("except_spec",
    seq [
      field "kind" (choice [literal "group", literals importKinds]),
      field "refs" (choice [symbol "references", literal "all"])])]

/-- Functions, altsteps, test cases and configurations, and their types. -/
def behaviourRules : List (String × Rule) := [
  ("func",
    seq [
      visibility, literal "function",
      field "modifiers" (opt (symbol "modifiers")),
      symbol "_parameterized_name",
      field "parameters" (symbol "parameters"),
      extendsField, symbol "_component_clauses",
      field "return_type" (opt (symbol "return_type")),
      exceptionField, field "body" (opt (symbol "block")), attributes]),
  ("external_function",
    seq [
      visibility, literal "external", literal "function",
      field "modifiers" (opt (symbol "modifiers")),
      symbol "_parameterized_name",
      field "parameters" (symbol "parameters"),
      field "return_type" (opt (symbol "return_type")),
      exceptionField, attributes]),
  ("altstep",
    seq [
      visibility, literal "altstep",
      field "modifiers" (opt (symbol "modifiers")),
      field "interleave" (opt (literal "interleave")),
      symbol "_parameterized_name",
      field "parameters" (symbol "parameters"),
      symbol "_component_clauses", exceptionField, field "body" (symbol "alt_block"), attributes]),
  ("testcase",
    seq [
      visibility, literal "testcase", symbol "_parameterized_name",
      field "parameters" (symbol "parameters"),
      opt (choice [
        field "execute_on" (seq [literal "execute", literal "on", symbol "reference"]),
        runsOnSystem]),
      field "body" (symbol "block"), attributes]),
  ("configuration",
    seq [
      visibility, literal "configuration", symbol "_parameterized_name",
      field "parameters" (symbol "parameters"),
      runsOnSystem, field "body" (opt (symbol "block")), attributes]),
  ("control", seq [visibility, literal "control", field "body" (symbol "block"), attributes]),
  ("altstep_type",
    seq [
      visibility, literal "type", literal "altstep",
      field "interleave" (opt (literal "interleave")),
      symbol "_parameterized_name",
      field "parameters" (symbol "parameters"),
      symbol "_component_clauses", attributes]),
  ("testcase_type",
    seq [
      visibility, literal "type", literal "testcase", symbol "_parameterized_name",
      field "parameters" (symbol "parameters"),
      runsOnSystem, attributes]),
  ("function_type",
    seq [
      visibility, literal "type", literal "function",
      field "modifiers" (opt (symbol "modifiers")),
      symbol "_parameterized_name",
      field "parameters" (symbol "parameters"),
      extendsField, symbol "_component_clauses",
      field "return_type" (opt (symbol "return_type")),
      attributes]),
  ("class_type",
    seq [
      visibility, literal "type",
      field "external" (opt (literal "external")),
      literal "class",
      field "modifiers" (opt (symbol "modifiers")),
      symbol "_parameterized_name",
      keywordClause "super_class" ["extends"] (symbol "reference"),
      symbol "_component_clauses", symbol "_definition_body",
      keywordClause "destructor" ["finally"] (symbol "block"),
      attributes]),
  ("constructor",
    seq [
      visibility, literal "constructor",
      field "parameters" (symbol "parameters"),
      keywordClause "superclass_constructor" [":"] (symbol "reference"),
      field "body" (opt (symbol "block")), attributes]),
  ("signature",
    seq [
      visibility, literal "signature", symbol "_parameterized_name",
      field "parameters" (symbol "parameters"),
      field "return_type" (opt (symbol "return_type")),
      exceptionField, attributes])]

/-- Constants, variables, parameters, ports, timers and templates. -/
def dataRules : List (String × Rule) := [
  ("const_decl", declaration "const" false (opt (symbol "nested_type"))),
  ("var_decl", declaration "var" true (opt (symbol "nested_type"))),
  ("module_parameter", declaration "modulepar" true (symbol "nested_type")),
  ("timer_decl",
    seq [
      visibility, literal "timer",
      field "declarators" (commaSep1 (symbol "declarator")),
      attributes]),
  ("port_decl", declaration "port" false (symbol "nested_type")),
  ("map_type",
    seq [
      visibility, literal "type", literal "map",
      field "key_type" (seq [literal "from", symbol "nested_type"]),
      field "value_type" (seq [literal "to", symbol "nested_type"]),
      symbol "_parameterized_name", attributes]),
  ("friend",
    seq [
      field "private" (opt (literal "private")),
      literal "friend", literal "module", symbol "references", attributes]),
  ("mode_definition",
    seq [
      visibility, literal "mode", symbol "_parameterized_name",
      field "parameters" (opt (symbol "parameters")),
      runsOn, literal "\x7b", literal "\x7d", attributes]),
  ("template",
    seq [
      visibility, literal "template",
      field "restriction" (opt (seq [literal "(", symbol "template_restriction", literal ")"])),
      field "modifiers" (opt (symbol "modifiers")),
      field "type" (symbol "reference"), symbol "_parameterized_name",
      field "parameters" (opt (symbol "parameters")),
      keywordClause "modifies" ["modifies"] (symbol "reference"),
      literal ":=", field "value" (symbol "_expression"), attributes])]

/-- Structured types, ports, components and subtypes. -/
def typeRules : List (String × Rule) := [
  ("record_type", structuredType "record"),
  ("set_type", structuredType "set"),
  ("union_type", structuredType "union"),
  ("record_of_type", listType "record"),
  ("set_of_type", listType "set"),
  ("enumerated_type",
    seq [
      visibility, literal "type", literal "enumerated", symbol "_parameterized_name",
      literal "\x7b",
      field "values" (commaSep (symbol "enumerated_value")),
      literal "\x7d", attributes]),
  ("port_type",
    seq [
      visibility, literal "type", literal "port", symbol "_parameterized_name",
      keywordClause "map_to" ["map", "to"] (symbol "references"),
      keywordClause "connect_to" ["connect", "to"] (symbol "references"),
      field "kind" (literals ["message", "procedure", "stream", "mixed"]),
      field "realtime" (opt (literal "realtime")),
      field "port_attributes" (opt (symbol "port_attributes")),
      attributes]),
  ("component_type",
    seq [
      visibility, literal "type", literal "component", symbol "_parameterized_name",
      keywordClause "extends" ["extends"] (symbol "references"),
      field "body" (opt (symbol "block")), attributes]),
  ("subtype",
    seq [
      visibility, literal "type",
      field "super_type" (symbol "nested_type"),
      symbol "_parameterized_name",
      field "value_constraint" (opt (symbol "template_values")),
      field "length_constraint" (opt (symbol "length_spec")),
      attributes])]

/-- The parts of type definitions and declarations. -/
def partRules : List (String × Rule) := [
  ("field",
    seq [
      field "default" (opt (literal "@default")),
      field "type" (symbol "nested_type"), nameField,
      field "array_def" (opt (symbol "array_def")),
      field "value_constraint" (opt (symbol "template_values")),
      field "length_constraint" (opt (symbol "length_spec")),
      field "optional" (opt (literal "optional"))]),
  ("array_def", oneOrMore (seq [literal "[", symbol "_expression", literal "]"])),
  ("enumerated_value",
    seq [
      nameField,
      field "value" (opt (seq [literal "(", commaSep1 (symbol "_expression"), literal ")"]))]),
  ("port_attributes",
    seq [literal "\x7b", withSemicolons (symbol "_port_attribute"), literal "\x7d"]),
  ("_port_attribute",
    choice ([
      "var_decl", "const_decl", "port_address", "port_map_param", "port_unmap_param",
      "port_message_types"].map symbol)),
  ("port_address", seq [literal "address", symbol "_port_translation_spec"]),
  ("port_map_param",
    seq [literal "map", literal "param", field "parameters" (symbol "parameters")]),
  ("port_unmap_param",
    seq [literal "unmap", literal "param", field "parameters" (symbol "parameters")]),
  ("port_message_types",
    seq [
      field "direction" (literals ["in", "out", "inout"]),
      field "messages" (commaSep1 (symbol "_port_translation_spec"))]),
  ("_port_translation_spec",
    seq [
      field "type" (symbol "reference"),
      field "translate" (opt (seq [
        field "direction" (literals ["from", "to"]),
        field "outer_type" (symbol "reference"), literal "with",
        field "translator" (symbol "reference"), literal "(", literal ")"]))]),
  ("declarator", seq [nameField, field "value" (opt (seq [literal ":=", symbol "_expression"]))]),
  ("parameters", seq [literal "(", commaSep (symbol "parameter"), literal ")"]),
  ("parameter",
    seq [
      field "direction" (opt (literals ["in", "out", "inout"])),
      field "type" (symbol "nested_type"), nameField,
      field "array_def" (opt (symbol "array_def")),
      field "variadic" (opt (literal "...")),
      field "default" (opt (seq [literal ":=", symbol "_expression"]))]),
  ("type_parameters", seq [literal "<", commaSep (symbol "type_parameter"), literal ">"]),
  ("type_parameter",
    seq [
      literal "in",
      field "type" (choice [symbol "nested_type", literal "type", literal "signature"]),
      nameField,
      field "default" (opt (seq [literal ":=", symbol "nested_type"]))])]

/-- Results, constraints and attributes. -/
def clauseRules : List (String × Rule) := [
  ("return_type",
    seq [
      literal "return",
      field "template_restriction" (opt (symbol "nested_template")),
      field "type" (symbol "nested_type")]),
  ("nested_template",
    choice [
      seq [
        literal "template",
        opt (seq [literal "(", symbol "template_restriction", literal ")"])],
      symbol "template_restriction"]),
  ("template_restriction", literals ["omit", "value", "present"]),
  ("nested_type", symbol "reference"),
  ("length_spec",
    seq [
      literal "length", literal "(",
      field "lower" (opt (seq [symbol "_boundary", literal ".."])),
      field "upper" (symbol "_boundary"), literal ")"]),
  ("_boundary",
    seq [
      field "exclusive" (opt (literal "!")),
      field "boundary" (choice [symbol "number", symbol "reference"])]),
  ("attributes",
    seq [literal "with", literal "\x7b", withSemicolons (symbol "attribute"), literal "\x7d"]),
  ("attribute",
    seq [
      field "kind" (literals ["extension", "encode", "variant", "display", "optional"]),
      field "modifier" (opt (literals ["override", "@local"])),
      field "specifier" (opt (seq [
        literal "(",
        commaSep1 (seq [
          symbol "reference",
          opt (seq [
            literal "except", literal "\x7b", symbol "references", literal "\x7d"])]),
        literal ")"])),
      field "encodings" (opt (seq [
        literal "\x7b", commaSep1 (symbol "charstring"), literal "\x7d"])),
      field "value" (symbol "charstring")]),
  ("language_spec", seq [literal "language", commaSep1 (symbol "charstring")])]

end IncrementalLR.Ttcn3
