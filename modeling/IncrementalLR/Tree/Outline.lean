import IncrementalLR.Tree.Basic

/-!
# Whole trees

The nodes of a tree in preorder, and the expression of its named nodes with their fields.
-/

namespace IncrementalLR.Node

/-- A node and all below it in preorder, each with its depth and field. -/
def preorder (n : Node) (depth : Nat) (field : Option FieldId) :
    List (Nat × Option FieldId × Node) :=
  (depth, field, n) ::
    n.labelledChildren.attach.flatMap fun ⟨(child, field), _⟩ => preorder child (depth + 1) field
  termination_by n.subtree.nodeCount
  decreasing_by exact nodeCount_lt_of_mem_labelledChildren ‹_›

/-- A node in parentheses: its kind and its named and missing children, each behind the name of its
field. -/
def sexp (n : Node) : String :=
  if n.isMissing then
    "(MISSING " ++ (if n.isNamed then n.kind else Text.quoted n.kind) ++ ")"
  else
    let parts := n.labelledChildren.attach.map fun ⟨(child, field), _⟩ =>
      if child.isNamed || child.isMissing then
        let label := match field with
          | some f => n.table.fieldName f ++ ": "
          | none => ""
        " " ++ label ++ sexp child
      else ""
    "(" ++ n.kind ++ String.join parts ++ ")"
  termination_by n.subtree.nodeCount
  decreasing_by exact nodeCount_lt_of_mem_labelledChildren ‹_›

end IncrementalLR.Node
