import Resugar.Text.Name
import Resugar.Tree.Part

/-!
# Exports

An export assignment at the top level, `exports.k = a` or `module.exports = a`,
names what it exports (`Node.exportKey?`) and the binding whose value it takes
(`Node.exportAssignment?`). The binding has to be defined at the top level
(`Node.findDefinition?`). A few statements that come with such assignments mean
nothing once they are export declarations (`Node.isExportLeftover`).
-/

namespace Resugar

namespace Node

/-- The key of the default export. -/
def defaultKey : Text := "default"

/-- What an assignment to this target exports: `exports.k`, or `module.exports`
    for the default. -/
def exportKey? (target : Node) : Option Text :=
  match target.ungroup with
  | member receiver property computed _ =>
    if receiver.isNamed "exports" then property.propertyName? computed
    else if receiver.isNamed "module" && property.propertyName? computed ==
      some (Text.ofString "exports") then
      some defaultKey
    else none
  | _ => none

/-- What a statement exports, and the binding it takes the value from. -/
def exportAssignment? : Node → Option (Text × Text)
  | exprStmt e =>
    match e.ungroup with
    | assignment operator left (identifier binding) =>
      if operator = Text.ofString "=" then (exportKey? left).map (·, binding) else none
    | _ => none
  | _ => none

/-! ## Definitions -/

/-- How a binding is defined at the top level. -/
inductive Definition where
  /-- By a declarator, which stands between others in a declaration. -/
  | byDeclarator (kind : VariableKind) (before : List Node) (declarator : Node) (after : List Node)
  /-- By a function or class declaration. -/
  | byDeclaration (declaration : Node)

namespace Definition

/-- The value that a definition gives. -/
def value? : Definition → Except Fault (Option Node)
  | byDeclarator _ _ d _ => d.declaredValue
  | byDeclaration _ => .ok none

/-- What remains of a declaration when a declarator is taken out; nothing, if it
    is the only one. -/
def remains : Definition → List Node
  | byDeclarator _ [] _ [] => []
  | byDeclarator kind before _ after => [varDecl kind (before ++ after)]
  | byDeclaration s => [s]

end Definition

/-- How a statement defines a name. -/
def definition? (name : Text) (s : Node) : Except Fault (Option Definition) := do
  match s with
  | varDecl kind ds =>
    return (← declaratorOf? name ds).map fun (before, d, after) => .byDeclarator kind before d after
  | functionDecl (some id) _ _ _ _ =>
    return if (← id.definedName) = name then some (.byDeclaration s) else none
  | classDecl (some id) _ _ =>
    return if (← id.definedName) = name then some (.byDeclaration s) else none
  | _ => return none

/-- The first statement that defines a name, with those around it. -/
def findDefinition? (name : Text) :
    List Node → Except Fault (Option (List Node × Definition × List Node))
  | [] => return none
  | s :: rest => do
    match ← s.definition? name with
    | some d => return some ([], d, rest)
    | none =>
      return (← findDefinition? name rest).map fun (before, d, after) => (s :: before, d, after)

/-! ## Export declarations -/

/-- An initializer as an export of its own. -/
def exportValue (key : Text) (init : Node) : Node :=
  if key = defaultKey then exportDefault init
  else exportNamed (some (varDecl .constant [declarator (identifier key) (some init)])) [] none

/-- A binding as an export. -/
def exportBinding (key binding : Text) : Node :=
  if key = defaultKey then exportDefault (identifier binding)
  else
    let exported := if key.isIdentifier then identifier key else literal (.string key) none
    exportNamed none [exportName (identifier binding) exported] none

/-! ## Leftovers -/

/-- `Object.defineProperty(exports, "__esModule", …)`, or an assignment to
    `exports.__esModule`. -/
def isModuleMarker : Node → Bool
  | exprStmt e =>
    match e.ungroup with
    | call callee (target :: key :: _) _ =>
      callee.isMemberOf "Object" "defineProperty" && target.isNamed "exports"
        && key.stringValue? == some (Text.ofString "__esModule")
    | assignment _ left _ => left.isMemberOf "exports" "__esModule"
    | _ => false
  | _ => false

/-- The keys `a`, `b`, … of `exports.a = exports.b = … = void 0`. -/
def placeholderKeys? : Node → Option (List Text)
  | parenthesized e => placeholderKeys? e
  | assignment operator left right =>
    if operator = Text.ofString "=" then
      match left.ungroup with
      | member receiver property computed _ =>
        if receiver.isNamed "exports" then do
          let key ← property.propertyName? computed
          let keys ← placeholderKeys? right
          return key :: keys
        else none
      | _ => none
    else none
  | n => if n.isVoid then some [] else none

/-- An assignment chain that only announces exports, all of them known. -/
def isPlaceholder (exported : List Text) : Node → Bool
  | exprStmt e =>
    match placeholderKeys? e with
    | some (key :: keys) => (key :: keys).all exported.contains
    | _ => false
  | _ => false

/-- A statement that means nothing once the exports are declarations. -/
def isExportLeftover (exported : List Text) (s : Node) : Bool :=
  s.isModuleMarker || s.isPlaceholder exported

end Node

end Resugar
