import Resugar.Concrete.Basic
import Resugar.Text.StringLiteral
import Resugar.Tree.Node

/-!
# Readings

What a concrete node means depends on where it stands: the same name is an
expression in one place and a pattern in another. A `Reading` is a concrete tree
in which every node carries its meaning in each of three roles, as an
expression, as a statement and as a pattern. A parent takes the roles it needs
from its children and their children, so that the meaning of a node never looks
further down than the readings below it.

The functions of this module are the questions that are asked of a reading and
its children.
-/

namespace Resugar

/-- A concrete tree with the meanings of its nodes. -/
inductive Reading where
  | node (label : Label) (expression statement pattern : Except Fault Node)
    (children : List Reading)

namespace Reading

def label : Reading → Label
  | node label .. => label

/-- The meaning as an expression. -/
def expression : Reading → Except Fault Node
  | node _ expression .. => expression

/-- The meaning as a statement. -/
def statement : Reading → Except Fault Node
  | node _ _ statement .. => statement

/-- The meaning as a pattern. -/
def pattern : Reading → Except Fault Node
  | node _ _ _ pattern _ => pattern

def children : Reading → List Reading
  | node _ _ _ _ children => children

def kind (r : Reading) : String :=
  r.label.kind

/-- The text of a node. -/
def text (src : Source) (r : Reading) : Except Fault Text :=
  r.label.text src

end Reading

/-- A concrete node whose children have been read, but not the node itself. -/
structure Site where
  label : Label
  children : List Reading

namespace Reading

/-- A reading as a node whose own meaning is asked for. -/
def site (r : Reading) : Site :=
  ⟨r.label, r.children⟩

end Reading

namespace Site

variable (s : Site)

/-- The children that stand for syntax. -/
def named : List Reading :=
  s.children.filter fun c => c.label.isNamed && !c.label.isExtra

/-- The first child that stands for syntax. -/
def first : Except Fault Reading :=
  match s.named with
  | c :: _ => .ok c
  | [] => .error .missingChild

/-- The first child in a field. -/
def field? (name : String) : Option Reading :=
  s.children.find? (·.label.field == some name)

/-- The children in a field. -/
def fieldAll (name : String) : List Reading :=
  s.children.filter (·.label.field == some name)

/-- The first child in a field that has to be there. -/
def required (src : Source) (name : String) : Except Fault Reading :=
  match s.field? name with
  | some c => .ok c
  | none =>
    .error (.missingField s.label.kind name (src.line s.label.start) (src.column s.label.start))

/-- Whether a token is among the children. -/
def hasToken (token : String) : Bool :=
  s.children.any fun c => !c.label.isNamed && c.kind == token

/-- The first named child of a kind. -/
def ofKind? (kind : String) : Option Reading :=
  s.children.find? fun c => c.label.isNamed && c.kind == kind

/-- The children that stand for syntax, as expressions. -/
def expressions : Except Fault (List Node) :=
  s.named.mapM Reading.expression

/-- The children that stand for syntax, as patterns. -/
def patterns : Except Fault (List Node) :=
  s.named.mapM Reading.pattern

/-- The children that stand for syntax, as the statements of a block. -/
def block : Except Fault Node := do
  return .block (← s.named.mapM Reading.statement)

/-- The first child that stands for syntax, as an expression. -/
def firstExpression : Except Fault Node := do
  (← s.first).expression

/-- The text of the node. -/
def text (src : Source) : Except Fault Text :=
  s.label.text src

end Site

namespace Reading

/-- An identifier with the text of the node. -/
def identifier (src : Source) (r : Reading) : Except Fault Node := do
  return .identifier (← r.text src)

/-- The node as a key: in brackets, a string, a number, or a name. -/
def key (src : Source) (r : Reading) : Except Fault Node :=
  if r.kind == "computed_property_name" then r.site.firstExpression
  else if r.kind == "string" || r.kind == "number" then r.expression
  else r.identifier src

/-- Whether the node is a key in brackets. -/
def isComputedKey (r : Reading) : Bool :=
  r.kind == "computed_property_name"

/-- The node as a name in an import or export list. -/
def moduleName (src : Source) (r : Reading) : Except Fault Node :=
  if r.kind == "string" then r.expression else r.identifier src

/-- The node as the condition of a statement, without its parentheses. -/
def condition (r : Reading) : Except Fault Node :=
  if r.kind == "parenthesized_expression" then r.site.firstExpression else r.expression

/-- The elements of an array, each read by `meaning`. A comma after a comma, or
    after the bracket, leaves a hole. `seen` says whether an element stands
    since the last comma. -/
def elements (meaning : Reading → Except Fault Node) :
    (seen : Bool) → List Reading → Except Fault (List (Option Node))
  | _, [] => .ok []
  | seen, c :: cs =>
    if c.kind == "," then do
      let rest ← elements meaning false cs
      return if seen then rest else none :: rest
    else if c.label.isNamed && !c.label.isExtra then do
      let element ← meaning c
      return some element :: (← elements meaning true cs)
    else elements meaning seen cs

end Reading

end Resugar
