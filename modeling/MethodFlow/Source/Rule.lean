import MethodFlow.Source.Program

/-!
The rules of the grammar under their names, and how far each of them reaches into a text.
-/

namespace MethodFlow.Source

/-- How many characters a reader takes off the front of a text. -/
def Reader.reach {α : Type} (p : Reader α) (cs : List Char) : Option Nat :=
  (p cs).map fun r => cs.length - r.2.length

open Reader in
def rules : List (String × (List Char → Option Nat)) := [
  ("program", program.reach),
  ("method_decl", methodDecl.reach),
  ("method_kw", (exactly "method").reach),
  ("param_list", params.reach),
  ("param", param.reach),
  ("var_decl", varDecl.reach),
  ("identifier_list", (listed name).reach),
  ("body_item", item.reach),
  ("label_def", label.reach),
  ("stmt", statement.reach),
  ("return_stmt", returnCommand.reach),
  ("goto_stmt", jumpTo.reach),
  ("if_stmt", branch.reach),
  ("condition", condition.reach),
  ("switch_stmt", switch.reach),
  ("case_clause", case.reach),
  ("default_clause", default.reach),
  ("nop_stmt", nopCommand.reach),
  ("invoke_stmt", callCommand.reach),
  ("assign_stmt", assignment.reach),
  ("lvalue", leftSide.reach),
  ("rvalue", rightSide.reach),
  ("new_array", newArray.reach),
  ("new_instance", newObject.reach),
  ("invoke_expr", invocation.reach),
  ("callee", callee.reach),
  ("qualified_name", member.reach),
  ("arg_list", arguments.reach),
  ("cast_expr", cast.reach),
  ("binary_expr", binary.reach),
  ("neg_expr", negation.reach),
  ("array_access", element.reach),
  ("field_access", member.reach),
  ("atom", atom.reach),
  ("literal", literal.reach),
  ("int_literal", number.reach),
  ("string_literal", stringLiteral.reach),
  ("null_literal", (exactly "null").reach),
  ("rel_op", relation.reach),
  ("bin_op", operator.reach),
  ("cmp_op", wordOperator.reach),
  ("type_name", typeName.reach),
  ("identifier", name.reach),
  ("keyword", keyword.reach),
  ("_", gap.reach),
  ("__", gap1.reach),
  ("comment", comment.reach)]

def rule? (name : String) : Option (List Char → Option Nat) :=
  rules.lookup name

end MethodFlow.Source
