import RoseLang.Syntax.Stmt

/-!
# Trees as S-expressions

A tree written with one pair of parentheses for each node, operator first:
`var x int = a or b and c` becomes `(var (spec (x) int ((or a (and b c)))))`.
-/

namespace RoseLang

def Expr.sexp : Expr → String
  | bad .. => "(bad)"
  | ident _ i => i.name
  | literal _ l => l.text
  | paren _ _ inner _ => "(paren " ++ inner.sexp ++ ")"
  | unary _ op _ operand => "(" ++ op.spelling ++ " " ++ operand.sexp ++ ")"
  | binary _ op _ left right => "(" ++ op.spelling ++ " " ++ left.sexp ++ " " ++ right.sexp ++ ")"

/-- Items in parentheses, separated by spaces. -/
def sexpList (items : List String) : String := "(" ++ String.intercalate " " items ++ ")"

def Spec.sexp (s : Spec) : String :=
  let type := match s.type with
    | some type => type.sexp
    | none => "nil"
  "(spec " ++ sexpList (s.names.map Ident.name) ++ " " ++ type ++ " "
    ++ sexpList (s.values.map Expr.sexp) ++ ")"

def Decl.sexp : Decl → String
  | bad .. => "(bad-decl)"
  | specs _ keyword _ _ entries _ => sexpList (keyword.spelling :: entries.map Spec.sexp)

def Stmt.sexp : Stmt → String
  | bad .. => "(bad-stmt)"
  | decl _ d => d.sexp
  | empty .. => "(empty)"
  | expr _ e => e.sexp
  | incDec _ e _ increment => (if increment then "(++ " else "(-- ") ++ e.sexp ++ ")"
  | assign _ left op _ right =>
    "(" ++ op.spelling ++ " " ++ sexpList (left.map Expr.sexp) ++ " "
      ++ sexpList (right.map Expr.sexp) ++ ")"

end RoseLang
