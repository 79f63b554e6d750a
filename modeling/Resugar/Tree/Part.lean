import Resugar.Fault
import Resugar.Tree.Shape

/-!
# Parts that have to be there

Any node can stand below any other one, so what a definition is made of may be
missing: the name of a function may be no name, its body may hold no statements,
and a declaration may hold what declares nothing. Where such a part is needed
and is not there, that is a fault.

* `Node.definedName`: the name that a definition gives.
* `Node.statements`: the statements of a body, and `Node.withStatements` puts
  others in their place.
* `Node.declaredTarget`, `Node.declaredValue`: the two sides of a declarator.
-/

namespace Resugar

namespace Node

/-! ## Names -/

/-- The name of a node that has one. -/
def name? : Node → Option Text
  | identifier name => some name
  | element name _ _ _ => some name
  | namedAttribute name _ => some name
  | _ => none

/-- The name that stands where a function, a class or an import is named. -/
def definedName (n : Node) : Except Fault Text :=
  match n.name? with
  | some name => .ok name
  | none => .error .nameless

/-! ## Bodies -/

def isProgram : Node → Bool
  | program _ => true
  | _ => false

/-- Whether a node has one statement, or one node of another kind, for a
    body. -/
def hasSingleBody : Node → Bool
  | functionExpr .. => true
  | functionDecl .. => true
  | arrow .. => true
  | classExpr .. => true
  | classDecl .. => true
  | forStmt .. => true
  | forInStmt .. => true
  | whileStmt .. => true
  | doWhileStmt .. => true
  | labeledStmt .. => true
  | catchClause .. => true
  | _ => false

/-- The statements of a body. -/
def statements : Node → Except Fault (List Node)
  | program body => .ok body
  | block body => .ok body
  | classBody body => .ok body
  | n => .error (if n.hasSingleBody then .singleBody else .noStatements)

/-- A body with other statements. -/
def withStatements (body : List Node) : Node → Node
  | program _ => program body
  | block _ => block body
  | classBody _ => classBody body
  | n => n

/-! ## Declarators -/

/-- What a declarator declares, or the name of a function or a class. -/
def declaredTarget : Node → Except Fault (Option Node)
  | declarator id _ => .ok (some id)
  | functionExpr id _ _ _ _ => .ok id
  | functionDecl id _ _ _ _ => .ok id
  | classExpr id _ _ => .ok id
  | classDecl id _ _ => .ok id
  | _ => .error .notADeclarator

/-- The initializer of a declarator. -/
def declaredValue : Node → Except Fault (Option Node)
  | declarator _ init => .ok init
  | forStmt init _ _ _ => .ok init
  | _ => .error .notADeclarator

/-- Whether a declarator is for a given name. -/
def declares (name : Text) (d : Node) : Except Fault Bool := do
  return (← d.declaredTarget).any (·.isNamed name)

/-- The first declarator for a name, with those before and after it. -/
def declaratorOf? (name : Text) : List Node → Except Fault (Option (List Node × Node × List Node))
  | [] => return none
  | d :: ds => do
    if ← d.declares name then return some ([], d, ds)
    else return (← declaratorOf? name ds).map fun (before, found, after) =>
      (d :: before, found, after)

def isDeclarator : Node → Bool
  | declarator .. => true
  | _ => false

/-- The declarators of a statement. -/
def declarators : Node → List Node
  | varDecl _ ds => ds
  | _ => []

/-- The declarations among some statements hold declarators only. -/
def checkDeclarators (body : List Node) : Except Fault Unit :=
  if (body.flatMap declarators).all isDeclarator then .ok () else .error .notADeclarator

end Node

end Resugar
