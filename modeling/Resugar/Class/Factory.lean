import Resugar.Table
import Resugar.Tree.Part

/-!
# Class factories

A *class factory* is a function that declares a constructor, names its prototype
right after that, and ends by returning the constructor; it is called where it
stands, with the superclass for instance:

    var Dog = function (_Animal) { _inheritsLoose(Dog, _Animal); function Dog()
    { … } var _proto = Dog.prototype; _proto.bark = function () { … }; return
    Dog; }(Animal);

`Factory.ofDeclarator?` recognises the initializer of a variable as such a call
and takes it apart.
-/

namespace Resugar

/-- How the call of a factory stands in an initializer. -/
inductive ClassEncoding where
  /-- Bare, with an argument for every parameter. -/
  | plain
  /-- With parentheses around the call or the factory. -/
  | parenthesized
  /-- Bare, with more or fewer arguments than parameters. -/
  | unevenArguments
  /-- As the callee of `new`. -/
  | newWrapped
  deriving DecidableEq

/-- The body of a factory, taken apart. -/
structure FactoryBody where
  before : List Node
  declaration : Node
  name : Text
  /-- The variable that holds the prototype. -/
  protoName : Text
  protoKind : VariableKind
  /-- The other declarators beside that variable. -/
  protoRest : List Node
  /-- The statements after that, less the final `return`. -/
  after : List Node

/-- A class factory and its call. -/
structure Factory where
  /-- The variable whose initializer it is. -/
  binding : Text
  encoding : ClassEncoding
  function : Node
  params : List Node
  arguments : List Node
  statements : List Node
  /-- The arguments of `new`, where the factory stands in one. -/
  newArguments : List Node
  body : FactoryBody

namespace Node

/-- Whether a node declares the function with a given name. -/
def declaresFunction (name : Text) : Node → Except Fault Bool
  | functionDecl (some id) _ _ _ _ => do return (← id.definedName) == name
  | _ => return false

/-- The variable for the prototype that a declaration begins with, if it does;
    and the rest of the declaration. -/
def prototypeVariable? (name : Text) :
    Node → Except Fault (Option (Text × VariableKind × List Node))
  | varDecl kind (first :: rest) => do
    match ← first.declaredTarget with
    | some (identifier protoName) =>
      let holds := (← first.declaredValue).any (·.ungroup.isMemberOf name "prototype")
      return if holds then some (protoName, kind, rest) else none
    | _ => return none
  | _ => return none

/-- The identifier that a body returns at its end. -/
def returned? (body : List Node) : Option Text :=
  match body.getLast? with
  | some (returnStmt (some e)) => e.ungroup.identifierName?
  | _ => none

end Node

namespace FactoryBody

/-- The body that begins with the declaration of the constructor, with its
    prototype right after it. -/
def atConstructor? (name : Text) (declaration following : Node) (rest : List Node) :
    Except Fault (Option FactoryBody) := do
  if ← declaration.declaresFunction name then
    return (← following.prototypeVariable? name).map fun (protoName, protoKind, protoRest) =>
      { before := [], declaration, name, protoName, protoKind, protoRest, after := rest.dropLast }
  else return none

/-- The body taken apart around the constructor and its prototype. -/
def split? (name : Text) : List Node → Except Fault (Option FactoryBody)
  | s :: following :: rest => do
    match ← atConstructor? name s following rest with
    | some b => return some b
    | none =>
      return (← split? name (following :: rest)).map fun b => { b with before := s :: b.before }
  | _ => return none

/-- The body of a factory taken apart, if it is one. -/
def ofStatements? (statements : List Node) : Except Fault (Option FactoryBody) :=
  match Node.returned? statements with
  | some name => split? name statements
  | none => .ok none

end FactoryBody

namespace Factory

/-- The call of a function where it stands, as a factory. -/
def ofCall? (binding : Text)
    (encoding : (grouped : Bool) → (params arguments : Nat) → ClassEncoding)
    (newArguments : List Node) : Node → Except Fault (Option Factory)
  | .call callee arguments _ =>
    match callee.ungroup with
    | .functionExpr id params functionBody isAsync isGenerator => do
      let statements ← functionBody.statements
      return (← FactoryBody.ofStatements? statements).map fun body =>
        { binding, encoding := encoding callee.isParenthesized params.length arguments.length,
          function := .functionExpr id params functionBody isAsync isGenerator,
          params, arguments, statements, newArguments, body }
    | _ => return none
  | _ => return none

/-- The encoding of a call that is not under `new`. -/
def encodingOf (initGrouped calleeGrouped : Bool) (params arguments : Nat) : ClassEncoding :=
  if initGrouped || calleeGrouped then .parenthesized
  else if params = arguments then .plain
  else .unevenArguments

/-- The factory in an initializer. -/
def ofInitializer? (binding : Text) : Node → Except Fault (Option Factory)
  | .newExpr callee newArguments =>
    if callee.isParenthesized then
      ofCall? binding (fun _ _ _ => .newWrapped) newArguments callee.ungroup
    else .ok none
  | init => ofCall? binding (encodingOf init.isParenthesized) [] init.ungroup

/-- The factory that a declarator holds. -/
def ofDeclarator? : Node → Except Fault (Option Factory)
  | .declarator (.identifier name) (some init) => ofInitializer? name init
  | _ => .ok none

/-- The name of the class: the variable's, or under `new` the constructor's. -/
def className (f : Factory) : Text :=
  if f.encoding = .newWrapped then f.body.name else f.binding

end Factory

end Resugar
