import ClosureLang.Expr.Basic

/-!
# Text of expressions

Calls are written with their callee first, and lambdas and conditions in parentheses, so the text does not depend on
how operators bind.
-/

namespace ClosureLang.Expr

mutual

/-- The text of an expression. -/
def text : Expr → String
  | number _ value => Number.text value
  | name _ x _ => x
  | call _ callee args => callee.text ++ "(" ++ textList ", " args ++ ")"
  | lambda _ params body _ _ => "((" ++ textList ", " params ++ ") -> " ++ body.text ++ ")"
  | block _ statements => "\x7b" ++ textList "; " statements ++ "\x7d"
  | assign _ x value _ => x ++ " = " ++ value.text
  | cond _ test onTrue onFalse => "(" ++ test.text ++ " ? " ++ onTrue.text ++ " : " ++ onFalse.text ++ ")"

/-- The texts of expressions with a separator between them. -/
def textList (separator : String) : List Expr → String
  | [] => ""
  | [e] => e.text
  | e :: es => e.text ++ separator ++ textList separator es

end

end ClosureLang.Expr
