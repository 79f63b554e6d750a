import Resugar.Tree.Walk

/-!
# Shapes

Small questions about the shape of a node: whether it is a given name, a string,
`this`, an absent value, a member with a given name. Grouping parentheses count
as they stand, unless they are taken off first (`Node.ungroup`).
-/

namespace Resugar

namespace Node

/-- A node less the grouping around it. -/
def ungroup : Node → Node
  | parenthesized e => ungroup e
  | n => n

/-- Whether a node is an identifier with a given name. -/
def isNamed (n : Node) (name : Text) : Bool :=
  n.identifierName? == some name

/-- The value of a string literal. -/
def stringValue? : Node → Option Text
  | literal (.string t) _ => some t
  | _ => none

def isString (n : Node) : Bool :=
  n.stringValue?.isSome

def isLiteral : Node → Bool
  | literal .. => true
  | _ => false

/-- Number literals. -/
def isNumber : Node → Bool
  | literal (.number _) _ => true
  | _ => false

def isThis : Node → Bool
  | thisExpr => true
  | _ => false

/-- `void` of anything, which stands for no value. -/
def isVoid : Node → Bool
  | unary operator _ => operator == Text.ofString "void"
  | _ => false

/-- An absent value: `void` of anything, `undefined` or `null`. -/
def isNullish : Node → Bool
  | literal .null _ => true
  | n => n.isVoid || n.isNamed "undefined"

def isCall : Node → Bool
  | call .. => true
  | _ => false

def isSpread : Node → Bool
  | spread .. => true
  | _ => false

def isFunctionExpr : Node → Bool
  | functionExpr .. => true
  | _ => false

def isParenthesized : Node → Bool
  | parenthesized .. => true
  | _ => false

def isElement : Node → Bool
  | element .. => true
  | _ => false

/-- The name of a property, written as in `a.b` or computed as in `a["b"]`. -/
def propertyName? : (property : Node) → (computed : Bool) → Option Text
  | identifier name, false => some name
  | literal (.string name) _, true => some name
  | _, _ => none

/-- The name of the property that `a.b` or `a["b"]` is about. -/
def memberName? : Node → Option Text
  | member _ property computed _ => propertyName? property computed
  | _ => none

/-- The receiver of a member. -/
def receiver? : Node → Option Node
  | member receiver _ _ _ => some receiver
  | _ => none

/-- Whether a node is the property with a given name of anything. -/
def isMemberNamed (n : Node) (property : Text) : Bool :=
  n.memberName? == some property

/-- Whether a node is the given property of the given variable. -/
def isMemberOf (n : Node) (receiver property : Text) : Bool :=
  n.isMemberNamed property && n.receiver?.any (·.isNamed receiver)

/-- Whether an expression has no effect and is cheap to repeat: a name, a
    literal or a chain of members. -/
def isPure : Node → Bool
  | parenthesized e => isPure e
  | identifier _ => true
  | literal _ _ => true
  | thisExpr => true
  | member receiver property computed _ => (!computed || isPure property) && isPure receiver
  | unary operator argument =>
    ["void", "-", "!"].any (fun o => operator == Text.ofString o) && argument.ungroup.isLiteral
  | _ => false

/-- A statement of a prologue, such as `"use strict"`. -/
def isDirective : Node → Bool
  | exprStmt e => e.isString
  | _ => false

end Node

end Resugar
