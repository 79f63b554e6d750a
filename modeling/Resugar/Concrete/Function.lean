import Resugar.Concrete.Reading

/-!
# Functions and classes

The parts that function expressions and declarations, methods, and class
expressions and declarations have in common.
-/

namespace Resugar

namespace Reading

/-- The node as a list of parameters. -/
def params (r : Reading) : Except Fault (List Node) :=
  r.site.patterns

/-- The node as the body of a function. -/
def body (r : Reading) : Except Fault Node :=
  r.site.block

end Reading

/-- A function without its keyword. -/
structure FunctionParts where
  name : Option Node
  params : List Node
  body : Node
  isAsync : Bool
  isGenerator : Bool

/-- A method with the words before its key. -/
structure MethodParts where
  key : Node
  computed : Bool
  value : Node
  kind : EntryKind
  isStatic : Bool

/-- A class without its keyword. -/
structure ClassParts where
  name : Option Node
  superClass : Option Node
  body : Node

namespace Site

variable (src : Source) (s : Site)

/-- The node as a function. -/
def functionParts : Except Fault FunctionParts := do
  let name ← (s.field? "name").mapM (·.identifier src)
  let params ← (← s.required src "parameters").params
  let body ← (← s.required src "body").body
  return ⟨name, params, body, s.hasToken "async",
    s.hasToken "*" || s.label.kind.startsWith "generator"⟩

/-- How the words before the key define the method: the last accessor counts. -/
def methodKind : EntryKind :=
  s.children.foldl (fun kind c =>
    if c.label.isNamed then kind
    else if c.kind == "get" || c.kind == "static get" then .get
    else if c.kind == "set" then .set
    else kind) .init

/-- The node as a method. -/
def methodParts : Except Fault MethodParts := do
  let key ← s.required src "name"
  let params ← (← s.required src "parameters").params
  let body ← (← s.required src "body").body
  return {
    key := ← key.key src
    computed := key.isComputedKey
    value := .functionExpr none params body (s.hasToken "async") (s.hasToken "*")
    kind := s.methodKind
    isStatic := s.hasToken "static" || s.hasToken "static get" }

end Site

/-- Whether a key, not in brackets, is the name of the constructor. -/
def Node.isConstructorKey : Node → Bool
  | .identifier name => name == Text.ofString "constructor"
  | .literal (.string text) _ => text == Text.ofString "constructor"
  | _ => false

namespace MethodParts

/-- The method as a member of a class. -/
def toMember (m : MethodParts) : Node :=
  let kind : MethodKind := match m.kind with
    | .get => .get
    | .set => .set
    | _ => if !m.isStatic && !m.computed && m.key.isConstructorKey then .constructor else .method
  .method m.key m.value kind m.isStatic m.computed

/-- The method as an entry of an object literal. -/
def toEntry (m : MethodParts) : Node :=
  .entry m.key m.value m.kind m.computed false (m.kind = .init)

end MethodParts

namespace Reading

/-- The node as a member of a class. -/
def member (src : Source) (r : Reading) : Except Fault Node :=
  if r.kind == "method_definition" then do return (← r.site.methodParts src).toMember
  else if r.kind == "field_definition" then do
    let property ← r.site.required src "property"
    let key ← property.key src
    let value ← (r.site.field? "value").mapM expression
    return .classField key value (r.site.hasToken "static") property.isComputedKey
  else do return .raw (← r.text src)

end Reading

namespace Site

variable (src : Source) (s : Site)

/-- The node as a class. -/
def classParts : Except Fault ClassParts := do
  let superClass ← (s.ofKind? "class_heritage").mapM (·.site.firstExpression)
  let members ← (← s.required src "body").site.named.mapM (·.member src)
  let name ← (s.field? "name").mapM (·.identifier src)
  return ⟨name, superClass, .classBody members⟩

end Site

end Resugar
