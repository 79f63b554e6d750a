import Resugar.Text.Name
import Resugar.Table
import Resugar.Tree.Part

/-!
# Members of a rebuilt class

The statements of a factory that define members: assignments to the prototype or
to the class (`ClassNames.assignedMember?`), and calls that register descriptors
(`ClassNames.registeredMembers?`).
-/

namespace Resugar

/-- The names by which a factory refers to the class it makes. -/
structure ClassNames where
  className : Text
  ctorName : Text
  protoName : Text

namespace Node

/-- A string as the key of a member: a name where it can be one. -/
def stringKey (key : Text) : Node :=
  if key.isIdentifier then identifier key else literal (.string key) none

/-- The key of the member that an assignment to a property defines, and whether
    it is computed. -/
def memberKey (property : Node) (computed : Bool) : Node × Bool :=
  if computed then
    match property.stringValue? with
    | some key => (stringKey key, false)
    | none => (property, true)
  else (property, false)

/-- A function as the value of a method. -/
def methodValue? : Node → Option Node
  | functionExpr _ params body isAsync isGenerator =>
    some (functionExpr none params body isAsync isGenerator)
  | _ => none

/-- Whether a function refers to itself by its own name. -/
def refersToItself : Node → Except Fault Bool
  | functionExpr (some id) _ body _ _ => do return body.references (← id.definedName)
  | _ => return false

/-! ## Descriptors -/

/-- The parts of a descriptor by name; the last of a name counts. -/
def descriptorParts? (entries : List Node) : Option (Table Node) :=
  entries.foldlM (fun t e => match e with
    | entry (identifier key) value _ false _ _ => some (t.insert key value)
    | entry (literal (.string key) _) value _ false _ _ => some (t.insert key value)
    | _ => none) []

/-- A part of a descriptor, as a method of a given kind, if it is a function. -/
def descriptorMethod? (parts : Table Node) (key : Node) (computed isStatic : Bool) (part : String)
    (kind : MethodKind) : Option (List Node) :=
  match parts.get? part with
  | none => some []
  | some value => (methodValue? value.ungroup).map fun f => [method key f kind isStatic computed]

/-- The methods of a descriptor: `get` and `set` accessors, or a method. -/
def describedMethods? (isStatic : Bool) (descriptor : Node) : Option (List Node) :=
  match descriptor.ungroup with
  | object entries => do
    let parts ← descriptorParts? entries
    let keyNode ← parts.get? "key"
    let (key, computed) := memberKey keyNode.ungroup true
    let getters ← descriptorMethod? parts key computed isStatic "get" .get
    let setters ← descriptorMethod? parts key computed isStatic "set" .set
    let values ← descriptorMethod? parts key computed isStatic "value" .method
    match getters ++ setters ++ values with
    | [] => none
    | methods => some methods
  | _ => none

/-- The methods that a list of descriptors defines; `none` without a list. -/
def describedGroup? (isStatic : Bool) (group : Node) : Option (Option (List Node)) :=
  if group.ungroup.isNullish then some none
  else match group.ungroup with
    | array elements => do
      let methods ← elements.mapM fun e => e.bind (describedMethods? isStatic)
      return some methods.flatten
    | _ => none

end Node

namespace ClassNames

variable (names : ClassNames)

/-- Whether a node refers to the class. -/
def isClassRef (n : Node) : Bool :=
  n.ungroup.identifierName?.any fun name => name == names.ctorName || name == names.className

/-- Whether a node refers to the prototype of the class. -/
def isPrototypeRef (n : Node) : Bool :=
  n.ungroup.isNamed names.protoName
    || (n.ungroup.isMemberNamed "prototype" && n.ungroup.receiver?.any names.isClassRef)

/-- Whether the members of a receiver are members of the class, and then whether
    they are static. -/
def isStaticReceiver? (receiver : Node) : Option Bool :=
  if names.isPrototypeRef receiver then some false
  else if names.isClassRef receiver then some true
  else none

/-- The member that an assignment defines. -/
def assignedMember? : Node → Except Fault (Option Node)
  | .exprStmt e =>
    match e.ungroup with
    | .assignment operator (.member receiver property computed _) right =>
      if operator = Text.ofString "=" then
        match names.isStaticReceiver? receiver with
        | none => return none
        | some isStatic =>
          let (key, computed) := Node.memberKey property computed
          match Node.methodValue? right.ungroup with
          | some f => do
            return if ← right.ungroup.refersToItself then none
              else some (.method key f .method isStatic computed)
          | none =>
            return if isStatic then some (.classField key (some right) true computed) else none
      else return none
    | _ => return none
  | _ => return none

/-- The methods that a call registers: the second argument has descriptors of
    the prototype, the third one of the class. One of them has to be there. -/
def registeredMembers? : Node → Option (List Node)
  | .exprStmt e =>
    match e.ungroup with
    | .call _ (target :: ofPrototype :: rest) _ =>
      if names.isClassRef target && rest.length ≤ 1 then do
        let first ← Node.describedGroup? false ofPrototype
        let second ← rest.head?.elim (some none) (Node.describedGroup? true)
        match first, second with
        | none, none => none
        | _, _ => some (first.getD [] ++ second.getD [])
      else none
    | _ => none
  | _ => none

end ClassNames

end Resugar
