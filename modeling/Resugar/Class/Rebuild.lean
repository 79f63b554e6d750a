import Resugar.Class.Factory
import Resugar.Class.Reference

/-!
# Rebuilt classes

`Factory.rebuild` turns a class factory into a class. Every statement of the
factory becomes a member, or is kept before or after the class
(`ClassNames.sortStatement`, `Factory.sorted?`). The class comes with its
superclass, and the names of the factory are replaced everywhere
(`SortedClass.finish`, `Resugar.Class.Reference`).
-/

namespace Resugar

/-- What becomes of a statement of a factory. -/
inductive Sorted where
  | member (m : Node)
  /-- Methods that were registered by descriptors. -/
  | registered (ms : List Node)
  | kept (s : Node)

/-- What becomes of a statement of a factory. -/
def ClassNames.sortStatement (names : ClassNames) (s : Node) : Except Fault Sorted := do
  match ← names.assignedMember? s with
  | some m => return .member m
  | none =>
    match names.registeredMembers? s with
    | some ms => return .registered ms
    | none => return .kept s

namespace Sorted

def member? : Sorted → Option Node
  | member m => some m
  | _ => none

def registeredMembers : Sorted → List Node
  | registered ms => ms
  | _ => []

def kept? : Sorted → Option Node
  | kept s => some s
  | _ => none

end Sorted

/-- The parts of the class, sorted, as they stand in the factory. -/
structure SortedClass where
  reference : Reference
  leading : List Node
  draft : ConstructorDraft
  members : List Node
  trailing : List Node

/-- A class, with the statements around it. -/
structure RebuiltClass where
  leading : List Node
  members : List Node
  superClass : Option Node
  trailing : List Node

namespace Node

/-- The statements of a method in which aliases of `this` are looked for. -/
def aliasedBody (statements : List Node) : List Node :=
  resolveHeld (statements.map unwrapAssertions)

/-- The function of a method with `this` put back in its body. -/
def normalizeMember : Node → Except Fault Node
  | method key (functionExpr id params body isAsync isGenerator) kind isStatic computed => do
    let statements ← body.statements
    checkDeclarators statements
    let statements' :=
      if kind = .constructor then resolveHeld statements
      else inlineThisAliases [] (aliasedBody statements)
    return method key
      (functionExpr id params (body.withStatements statements') isAsync isGenerator)
      kind isStatic computed
  | n => .ok n

/-- The parameters of a function declaration. -/
def functionParams : Node → List Node
  | functionDecl _ params _ _ _ => params
  | _ => []

/-- The body of a function declaration. -/
def functionBody : Node → Node
  | functionDecl _ _ body _ _ => body
  | n => n

end Node

namespace Factory

variable (f : Factory)

/-- The arguments of the factory by parameter, or `undefined` without one. -/
def valuesOf : List Node → List Node → Table Node → Table Node
  | .identifier name :: params, arguments, t =>
    valuesOf params arguments.tail
      (t.insert name ((arguments.head?.map Node.ungroup).getD (.identifier "undefined")))
  | _, _, t => t

/-- The arguments of the factory by parameter. The parameters are not written,
    and the arguments are free of effects. -/
def values? : Option (Table Node) :=
  if f.params.all Node.isIdentifier && !f.arguments.any Node.isSpread && f.arguments.all Node.isPure
      && !(f.params.filterMap Node.identifierName?).any (Node.isReassigned f.statements) then
    some (valuesOf f.params f.arguments [])
  else none

/-- What the names of a factory stand for, and the statements before the
    constructor less the one that registers the superclass. -/
def reference? (className : Text) : Option (Reference × List Node) :=
  f.values?.map fun values =>
    let names : ClassNames := ⟨className, f.body.name, f.body.protoName⟩
    let (heritage, before) := Heritage.take names.ctorName values f.body.before
    (⟨names, heritage, values⟩, before)

/-- The parts of the class that a factory makes, if it can be written as one. -/
def sorted? (className : Text) : Except Fault (Option SortedClass) :=
  match f.reference? className with
  | none => .ok none
  | some (r, before) => do
    let sortedBefore ← before.mapM r.names.sortStatement
    let sortedAfter ← f.body.after.mapM r.names.sortStatement
    let protoRest :=
      if f.body.protoRest.isEmpty then [] else [Node.varDecl f.body.protoKind f.body.protoRest]
    match ← r.names.draft? r.heritage f.body.declaration.functionParams
      f.body.declaration.functionBody with
    | none => return none
    | some draft =>
      let sorted := sortedBefore ++ sortedAfter
      return some {
        reference := r
        leading := sortedBefore.filterMap Sorted.kept?
        draft
        members := sorted.filterMap Sorted.member? ++ sorted.flatMap Sorted.registeredMembers
        trailing := protoRest ++ sortedAfter.filterMap Sorted.kept? }

end Factory

/-- The class with given parts, outside of the factory. -/
def SortedClass.finish (p : SortedClass) (compiled : Node) : Except Fault RebuiltClass := do
  let ctor ← p.draft.finish compiled
  let members ←
    (← (ctor.toList ++ p.members).mapM Node.normalizeMember).mapM p.reference.resolveMember
  return {
    leading := p.leading.map p.reference.resolve
    members
    superClass := p.reference.heritage.superClass
    trailing := p.trailing.map p.reference.resolve }

namespace Factory

variable (f : Factory)

/-- The class that a factory makes, under a given name. `none` if it cannot be
    written as a class. -/
def rebuild (className : Text) : Except Fault (Option RebuiltClass) := do
  match ← f.sorted? className with
  | none => return none
  | some c => return some (← c.finish f.body.declaration.functionBody)

/-- The statements in place of the declarator of a factory. Under `new`, the
    variable holds an instance; if the class has the name of this variable, it
    is a class expression, with no statements around it. -/
def toStatements (kind : VariableKind) (className : Text) (c : RebuiltClass) : Option (List Node) :=
  let declaration :=
    Node.classDecl (some (.identifier className)) c.superClass (.classBody c.members)
  let instanceOf (callee : Node) : Node :=
    .varDecl kind.orVar [.declarator (.identifier f.binding)
      (some (.newExpr callee f.newArguments))]
  if f.encoding ≠ .newWrapped then some (c.leading ++ [declaration] ++ c.trailing)
  else if className = f.binding then
    if c.leading.isEmpty && c.trailing.isEmpty then
      some [instanceOf (.parenthesized
        (.classExpr (some (.identifier className)) c.superClass (.classBody c.members)))]
    else none
  else some (c.leading ++ [declaration] ++ c.trailing ++ [instanceOf (.identifier className)])

end Factory

end Resugar
