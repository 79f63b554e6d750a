import Resugar.Config
import Resugar.Text.Name
import Resugar.Printer.Precedence
import Resugar.Text.Uppercase
import Resugar.Tree.Part

/-!
# Loads

A *load* is an initializer that fetches a module: `require("m")`, bare or
wrapped in calls of *interop helpers*, functions that make the module look like
one with a default export. The outermost helper says how the module is imported
(`ImportKind`); a bare load imports all of it. `bindingName` is the name that
an import gets from the variable it stands for.
-/

namespace Resugar

/-- How a module is imported. -/
inductive ImportKind where
  /-- `import a from "m"` -/
  | default
  /-- `import * as a from "m"` -/
  | namespaced
  deriving DecidableEq

namespace Node

/-- Whether a body only returns a choice between two values. -/
def isDefaultInterop : List Node → Bool
  | [returnStmt (some e)] => e.ungroup.isConditional
  | _ => false

/-- Whether a body begins with a choice on a logical test. -/
def isNamespaceInterop : List Node → Bool
  | ifStmt test _ _ :: _ => match test.ungroup with
    | logical .. => true
    | _ => false
  | _ => false

/-- The name and the kind of an interop helper. What a function does counts
    before what it is called. -/
def interopHelper? : Node → Except Fault (Option (Text × ImportKind))
  | functionDecl (some id) _ functionBody _ _ => do
    let body ← functionBody.statements
    let name ← id.definedName
    if isDefaultInterop body then return some (name, .default)
    else if isNamespaceInterop body then return some (name, .namespaced)
    else if name.hasPiece "interopRequireDefault" then return some (name, .default)
    else if name.hasPiece "interopRequireWildcard" then return some (name, .namespaced)
    else return none
  | _ => return none

end Node

/-- The interop helpers among some statements, in the order of their names; the
    last one of a name counts. -/
def interopHelpers (body : List Node) : Except Fault (Table ImportKind) := do
  return (← body.filterMapM Node.interopHelper?).foldl (fun t e => t.insert e.1 e.2) []

/-- The first helper of a kind. -/
def helperOf? (helpers : Table ImportKind) (kind : ImportKind) : Option Text :=
  (helpers.find? (·.2 == kind)).map (·.1)

/-! ## Loads -/

/-- What a bare load fetches. -/
def loadedSource? (loaders : List Text) (n : Node) : Option Text :=
  match n.ungroup with
  | .call (.identifier f) [.literal (.string source) _] _ =>
    if loaders.contains f then some source else none
  | _ => none

/-- The kind of the helper that an expression calls, and the first argument. -/
def interopCall? (helpers : Table ImportKind) (n : Node) : Option (ImportKind × Node) :=
  match n.ungroup with
  | .call (.identifier f) (argument :: _) _ => (helpers.get? f).map (·, argument)
  | _ => none

/-- What is loaded inside calls of helpers, at least one, at most `depth`. -/
def wrappedSource? (loaders : List Text) (helpers : Table ImportKind) :
    (depth : Nat) → Node → Option (Text × ImportKind)
  | 0, _ => none
  | depth + 1, n =>
    match interopCall? helpers n with
    | none => none
    | some (kind, argument) =>
      match loadedSource? loaders argument with
      | some source => some (source, kind)
      | none => (wrappedSource? loaders helpers depth argument).map fun l => (l.1, kind)

/-- The calls of helpers around a load. -/
def maxInteropDepth : Nat := 2

/-- The module that an initializer loads, and how. -/
def load? (loaders : List Text) (helpers : Table ImportKind) (init : Node) :
    Option (Text × ImportKind) :=
  match loadedSource? loaders init with
  | some source => some (source, .namespaced)
  | none => wrappedSource? loaders helpers maxInteropDepth init

/-! ## Names -/

/-- The name of an import for a variable: the one that is fixed for it, or the
    variable less one leading `_`, with a capital. It has to be an identifier.
    -/
def bindingName (aliases : Table Text) (name : Text) : Except Fault Text :=
  match aliases.get? name with
  | some fixed => .ok fixed
  | none =>
    let stripped := if 1 < name.length then (name.dropStart? "_").getD name else name
    match stripped with
    | [] => .error .emptyName
    | c :: rest =>
      let capital := c.upper ++ rest
      .ok (if capital.isIdentifier then capital else name)

/-- A module that is imported for a variable, under a name. -/
structure Import where
  source : Text
  kind : ImportKind
  binding : Text
  name : Text

/-- The declaration that imports the module. -/
def Import.declaration (i : Import) : Node :=
  let specifier := match i.kind with
    | .default => Node.importDefault (.identifier i.name)
    | .namespaced => Node.importNamespace (.identifier i.name)
  .importDecl [specifier] (.literal (.string i.source) none)

end Resugar
