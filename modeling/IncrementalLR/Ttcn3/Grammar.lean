import IncrementalLR.Ttcn3.Definitions
import IncrementalLR.Ttcn3.Statements
import IncrementalLR.Ttcn3.Expressions

/-!
# The grammar of TTCN-3

Modules, types, data, behaviour, the statement language and the full table of operators. Semicolons
between definitions and statements are optional; the ambiguities that follow are declared as
conflicts, between which the parser forks.
-/

namespace IncrementalLR.Ttcn3

open Rule

/-- The definition of the grammar. White space includes the no-break space, the byte order mark and
the ideographic space. -/
def grammar : GrammarDef :=
  { name := "ttcn3"
    rules := moduleRules ++ behaviourRules ++ dataRules ++ typeRules ++ partRules ++ clauseRules ++
      blockRules ++ controlRules ++ alternativeRules ++ operatorRules ++ valueRules ++ tokenRules
    word := some "_identifier"
    extras := some [symbol "comment", pattern "(\\s|\\xC2\\xA0|\\xEF\\xBB\\xBF|\\xE3\\x80\\x80)+"]
    externals := ["charstring"]
    conflicts := [
      ["break_stmt"], ["continue_stmt"], ["return_stmt"], ["reference", "name"],
      ["reference", "name", "type_instantiation_expression"], ["var_decl"], ["const_decl"]] }

end IncrementalLR.Ttcn3
