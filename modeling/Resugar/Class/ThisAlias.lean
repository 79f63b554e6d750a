import Resugar.Table
import Resugar.Tree.Part

/-!
# Locals that stand for `this`

Compiled methods keep `this`, or `this.props`, in a local variable.
`inlineThisAliases` puts what such a variable holds back in its place; a
variable that is written again, or that a nested function uses, whose `this` is
another one, is kept. `resolveHeld` looks through variables that hold a property
of `this`.
-/

namespace Resugar

namespace Node

/-- Whether a node writes a variable, by an assignment or an update. -/
def writes (name : Text) : Node → Bool
  | assignment _ left _ => left.isNamed name
  | update _ argument _ => argument.isNamed name
  | _ => false

/-- Whether a variable is written anywhere in some statements. -/
def isReassigned (body : List Node) (name : Text) : Bool :=
  body.any fun s => s.walk.any (writes name)

/-- Whether a variable is used in a function inside some statements, other than
    an arrow function. -/
def isUsedInFunction (body : List Node) (name : Text) : Bool :=
  body.any fun s => s.walk.any fun n => n.isFunction && n.references name

/-- The statements without some declarators, and without empty declarations. -/
def filterDeclarators (keep : Node → Bool) (body : List Node) : List Node :=
  body.filterMap fun
    | varDecl kind declarators =>
      match declarators.filter keep with
      | [] => none
      | kept => some (varDecl kind kept)
    | s => some s

/-- The name that a declarator declares. -/
def declaredName? : Node → Option Text
  | declarator id _ => id.identifierName?
  | _ => none

/-! ## Aliases -/

/-- The properties of `this` that are put back like `this` itself. -/
def isInlinedProperty (name : Text) : Bool :=
  name == Text.ofString "props" || name == Text.ofString "constructor"

/-- `this`, `this.props` or `this.constructor`, if it is an initializer. -/
def thisAliasTarget? (init : Node) : Option Node :=
  match init.ungroup with
  | thisExpr => some thisExpr
  | member receiver property false o =>
    if receiver.ungroup.isThis && (property.propertyName? false).any isInlinedProperty then
      some (member receiver property false o)
    else none
  | _ => none

/-- The variable that a declarator makes an alias of `this`, and its value. -/
def thisAlias? : Node → Option (Text × Node)
  | declarator (identifier name) (some init) => (thisAliasTarget? init).map (name, ·)
  | _ => none

/-- The aliases of `this` in some statements that can be put back. -/
def thisAliases (body : List Node) : Table Node :=
  ((body.flatMap declarators).filterMap thisAlias?).filter fun e =>
    !isUsedInFunction body e.1 && !isReassigned body e.1

/-- A tree with variables replaced by what they stand for. -/
def substitute (values : Table Node) (n : Node) : Node :=
  n.replaceAll (fun _ m => m.identifierName?.bind values.get?) false

/-- What the aliases of `this` in some statements stand for; `extra` are more
    names of `this`. -/
def aliasTable (extra : List Text) (body : List Node) : Table Node :=
  (thisAliases body).foldl (fun t e => t.insert e.1 e.2) (extra.map (·, thisExpr))

/-- The statements without the declarators of some aliases. -/
def withoutAliases (aliases : Table Node) (body : List Node) : List Node :=
  filterDeclarators (fun d => !d.declaredName?.any aliases.has) body

/-- Statements with the aliases of `this` put back. -/
def inlineThisAliases (extra : List Text) (body : List Node) : List Node :=
  let aliases := aliasTable extra body
  if aliases.isEmpty then body else (withoutAliases aliases body).map (substitute aliases)

/-! ## Variables that hold a property of `this` -/

/-- A declarator that looks through a variable which holds a property of `this`,
    and the variables that hold one after it. -/
def resolveDeclarator (reassigned : Text → Bool) (held : Table Node) (d : Node) :
    Node × Table Node :=
  match d with
  | declarator (identifier name) (some init) =>
    match init.ungroup with
    | member receiver property computed o =>
      match receiver.ungroup with
      | thisExpr => (d, held.insert name (member receiver property computed o))
      | identifier holder =>
        match held.get? holder with
        | some place =>
          if reassigned holder then (d, held)
          else
            let resolved := member place property computed o
            (declarator (identifier name) (some resolved), held.insert name resolved)
        | none => (d, held)
      | _ => (d, held)
    | _ => (d, held)
  | _ => (d, held)

/-- `resolveDeclarator` in order. -/
def resolveDeclarators (reassigned : Text → Bool) : Table Node → List Node → List Node × Table Node
  | held, [] => ([], held)
  | held, d :: ds =>
    let (d', held') := resolveDeclarator reassigned held d
    let (ds', held'') := resolveDeclarators reassigned held' ds
    (d' :: ds', held'')

/-- `resolveDeclarator` in all declarations among some statements, in order. -/
def resolveStatements (reassigned : Text → Bool) : Table Node → List Node → List Node
  | _, [] => []
  | held, varDecl kind ds :: rest =>
    let (ds', held') := resolveDeclarators reassigned held ds
    varDecl kind ds' :: resolveStatements reassigned held' rest
  | held, s :: rest => s :: resolveStatements reassigned held rest

/-- Statements where `var b = a.x` reads `this.f.x` if `a` holds `this.f`. -/
def resolveHeld (body : List Node) : List Node :=
  resolveStatements (isReassigned body) [] body

end Node

end Resugar
