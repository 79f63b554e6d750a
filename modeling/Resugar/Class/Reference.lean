import Resugar.Class.Constructor

/-!
# References out of a factory

The members of a rebuilt class no longer stand in the factory, so the names that
the factory gives to things are replaced: the variable for the prototype by
`C.prototype`, the constructor by the class, and the parameters by the arguments
of the factory (`Reference.resolve`). In a method, a call of a method of the
superclass becomes `super.m(…)` (`Reference.superMethodCall?`).
-/

namespace Resugar

/-- What the names of a factory stand for outside of it. -/
structure Reference where
  names : ClassNames
  heritage : Heritage
  /-- The arguments of the factory by parameter. -/
  values : Table Node

namespace Reference

variable (r : Reference)

/-- What a name of the factory stands for. -/
def ofName? (name : Text) : Option Node :=
  if name = r.names.protoName then
    some (.member (.identifier r.names.className) (.identifier "prototype") false false)
  else if name = r.names.ctorName ∧ r.names.ctorName ≠ r.names.className
    then some (.identifier r.names.className)
  else r.values.get? name

/-- What a name, or the constructor of the prototype, stands for. -/
def resolve? : Node → Option Node
  | .identifier name => r.ofName? name
  | .member receiver property computed _ =>
    if property.propertyName? computed == some (Text.ofString "constructor") &&
      r.names.isPrototypeRef receiver then
      some (.identifier r.names.className)
    else none
  | _ => none

/-- A node outside of the factory. -/
def resolve (n : Node) : Node :=
  n.replaceAll (fun _ => r.resolve?) false

/-- Whether the methods of an owner are the methods of the superclass that
    `super` reaches. -/
def isSuperOwner (isStatic : Bool) (owner : Node) : Except Fault Bool :=
  if isStatic then r.heritage.isSuperRef owner
  else match owner.isMemberNamed "prototype", owner.receiver? with
    | true, some receiver => r.heritage.isSuperRef receiver
    | _, _ => .ok false

/-- The arguments of a method that is called by `call` or `apply` on `this`. -/
def methodArguments? (name : Text) : List Node → Option (List Node)
  | .thisExpr :: rest =>
    if name = Text.ofString "call" then some rest
    else match rest with
      | [list] => some [.spread list]
      | _ => some []
  | _ => none

/-- `S.prototype.m.call(this, a)` becomes `super.m(a)`; in a static method,
    `S.m.call(this, a)` does. -/
def superMethodCall? (isStatic : Bool) : Node → Except Fault (Option Node)
  | .call (.member (.member owner property computed _) callProperty callComputed _)
      arguments _ => do
    match callProperty.propertyName? callComputed with
    | some name =>
      if name = Text.ofString "call" ∨ name = Text.ofString "apply" then
        if ← r.isSuperOwner isStatic owner.ungroup then
          return (methodArguments? name arguments).map fun arguments =>
            .call (.member .superExpr property computed false) arguments false
        else return none
      else return none
    | none => return none
  | _ => .ok none

/-- A node in the body of a method. Nested functions call no superclass. -/
def resolveInMethod? (isStatic nested : Bool) (n : Node) : Except Fault (Option Node) :=
  match n with
  | .call .. => if nested then .ok none else r.superMethodCall? isStatic n
  | _ => .ok (r.resolve? n)

/-- The body of a method outside of the factory. -/
def resolveBody (isStatic : Bool) (body : Node) : Except Fault Node := do
  return body.withStatements (← (← body.statements).mapM fun s =>
    s.replaceAllM (r.resolveInMethod? isStatic) false)

/-- The key of a member outside of the factory. -/
def resolveKey (computed : Bool) (key : Node) : Node :=
  if computed then r.resolve key else key

/-- A member of the class outside of the factory. -/
def resolveMember : Node → Except Fault Node
  | .method key (.functionExpr id params body isAsync isGenerator) kind isStatic computed => do
    let body' ← r.resolveBody isStatic body
    let value := .functionExpr id (params.map r.resolve) body' isAsync isGenerator
    return .method (r.resolveKey computed key) value kind isStatic computed
  | .classField key value isStatic computed =>
    .ok (.classField (r.resolveKey computed key) (value.map r.resolve) isStatic computed)
  | n => .ok n

end Reference

end Resugar
