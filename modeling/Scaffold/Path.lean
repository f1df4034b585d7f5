/-! # Context paths

A question's answer is kept under a dotted path: the names of the questions that enclose it, from
the root down, and its own. -/

namespace Scaffold.Path

/-- The path of the enclosing names. -/
def ofScope (scope : List String) : String := ".".intercalate scope

/-- The path of a name below a scope; an empty scope adds nothing. -/
def join (scope name : String) : String :=
  if scope.isEmpty then name else scope ++ "." ++ name

end Scaffold.Path
