import Resugar.Tree.Node
import Resugar.Fault

/-!
# Precedence

The tighter an expression binds, the higher its precedence; names, literals and
everything in brackets have 20. Where an operand binds less tightly than the
operator around it, or as tightly on the side to which the operator does not
group, it is printed in parentheses (`Node.needsParens`).
-/

namespace Resugar

/-- The precedence of a binary or logical operator. -/
def operatorPrecedence? (operator : Text) : Option Nat :=
  let rank (names : List String) (p : Nat) : Option Nat :=
    if names.any fun name => operator == Text.ofString name then some p else none
  rank ["**"] 16
    <|> rank ["*", "/", "%"] 15
    <|> rank ["+", "-"] 14
    <|> rank ["<<", ">>", ">>>"] 13
    <|> rank ["<", "<=", ">", ">=", "instanceof", "in"] 12
    <|> rank ["==", "!=", "===", "!=="] 11
    <|> rank ["&"] 10
    <|> rank ["^"] 9
    <|> rank ["|"] 8
    <|> rank ["&&"] 7
    <|> rank ["||"] 6
    <|> rank ["??"] 5
    <|> rank ["?:"] 4

/-- The operators that group to the right. -/
def groupsRight (operator : Text) : Bool :=
  ["**", "=", "?:"].any fun name => operator == Text.ofString name

/-- The side of an operator on which an operand stands. -/
inductive Side where
  | left
  | right
  deriving DecidableEq

namespace Node

/-- The kinds that are no expressions. -/
def isExpression : Node → Bool
  | entry .. => false
  | namedAttribute .. => false
  | spreadAttribute .. => false
  | markupText .. => false
  | program .. => false
  | exprStmt .. => false
  | block .. => false
  | emptyStmt => false
  | debuggerStmt => false
  | returnStmt .. => false
  | throwStmt .. => false
  | ifStmt .. => false
  | forStmt .. => false
  | forInStmt .. => false
  | whileStmt .. => false
  | doWhileStmt .. => false
  | breakStmt .. => false
  | continueStmt .. => false
  | labeledStmt .. => false
  | catchClause .. => false
  | tryStmt .. => false
  | switchCase .. => false
  | switchStmt .. => false
  | declarator .. => false
  | varDecl .. => false
  | functionDecl .. => false
  | method .. => false
  | classField .. => false
  | classBody .. => false
  | classDecl .. => false
  | importDefault .. => false
  | importNamespace .. => false
  | importName .. => false
  | importDecl .. => false
  | exportName .. => false
  | exportNamed .. => false
  | exportDefault .. => false
  | exportAll .. => false
  | _ => true

/-- The precedence of an expression. An unknown binary operator binds least of
    all; a logical one has to be known. -/
def precedence (n : Node) : Except Fault Nat :=
  match n with
  | taggedTemplate .. => .ok 19
  | unary .. => .ok 17
  | update .. => .ok 18
  | binary operator _ _ => .ok ((operatorPrecedence? operator).getD 0)
  | logical operator _ _ =>
    match operatorPrecedence? operator with
    | some p => .ok p
    | none => .error .unknownOperator
  | assignment .. => .ok 3
  | conditional .. => .ok 4
  | call .. => .ok 19
  | newExpr .. => .ok 19
  | sequence .. => .ok 1
  | awaitExpr .. => .ok 17
  | yieldExpr .. => .ok 2
  | arrow .. => .ok 3
  | n => if n.isExpression then .ok 20 else .error .notAnExpression

/-- The kinds of expressions with two sides that may meet an operator of their
    own precedence. -/
def isInfix : Node → Bool
  | binary .. => true
  | logical .. => true
  | assignment .. => true
  | conditional .. => true
  | _ => false

def isConditional : Node → Bool
  | conditional .. => true
  | _ => false

/-- Whether an operand of precedence `own` is printed in parentheses, on `side`
    of an operator of precedence `outer`. -/
def needsParens (n : Node) (own outer : Nat) (side : Side) (operator : Option Text) : Bool :=
  if own = outer ∧ n.isInfix then
    if operator.any groupsRight || n.isConditional then side == .left else side == .right
  else own < outer

/-- Whether the callee of `new` holds a call, which would take the arguments. -/
def containsCall : Node → Bool
  | call .. => true
  | taggedTemplate .. => true
  | member receiver _ _ _ => containsCall receiver
  | _ => false

end Node

end Resugar
