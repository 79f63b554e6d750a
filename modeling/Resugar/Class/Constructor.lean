import Resugar.Class.Heritage
import Resugar.Class.ThisAlias

/-!
# Constructors

The body of a compiled constructor checks how it is called, calls the superclass
as a function and keeps `this` in a local variable. `ClassNames.draft?` makes a
draft of the constructor that was written, in which `super(…)` stands where the
superclass is called; `ConstructorDraft.finish` puts `this` where the local
variable stands. A constructor that only passes its arguments on is left out.
-/

namespace Resugar

namespace Node

/-- `_assertThisInitialized(x)` becomes `x`. -/
def unwrapAssertion? : Node → Option Node
  | call (identifier f) [argument] _ =>
    if f.endsWith "assertThisInitialized" then some argument else none
  | _ => none

/-- A statement without assertions on `this`. -/
def unwrapAssertions (s : Node) : Node :=
  s.replaceAll (fun _ => unwrapAssertion?) false

/-- `_defineProperty(this, "a", v)` becomes `this.a = v`. -/
def definedProperty (s : Node) : Node :=
  match s with
  | exprStmt e =>
    match e.ungroup with
    | call (identifier f) [target, key, value] _ =>
      if f.endsWith "defineProperty" && target.ungroup.isThis then
        let place := match key.ungroup.stringValue?.filter Text.isIdentifier with
          | some name => member thisExpr (identifier name) false false
          | none => member thisExpr key.ungroup true false
        exprStmt (assignment "=" place value)
      else s
    | _ => s
  | _ => s

/-- Whether a constructor only passes all its arguments on to the superclass. -/
def isDefaultConstructor (params body : List Node) : Bool :=
  match body with
  | [exprStmt (call superExpr [spread argument] _)] =>
    match argument.ungroup with
    | identifier name =>
      if name = Text.ofString "arguments" then params.isEmpty
      else match params with
        | [restPattern rest] => rest.isNamed name
        | _ => false
    | _ => false
  | _ => false

/-! ## Copies of the arguments -/

/-- `new Array(…)` -/
def isNewArray : Node → Bool
  | newExpr callee _ => callee.isNamed "Array"
  | _ => false

/-- Whether `name = new Array(…)` is among some declarators. -/
def declaresArray (name : Text) : List Node → Except Fault Bool
  | [] => return false
  | d :: ds => do
    let isArray ← if ← d.declares name then (·.any isNewArray) <$> d.declaredValue else pure false
    if isArray then return true else declaresArray name ds

/-- A loop that copies the arguments into an array. -/
def isCopyLoop (name : Text) : Node → Except Fault Bool
  | forStmt (some (varDecl _ ds)) _ _ body => do
    return (← declaresArray name ds) && body.references "arguments"
  | _ => return false

/-- Statements less the first loop that copies the arguments, if any. -/
def withoutCopyLoop? (name : Text) : List Node → Except Fault (Option (List Node))
  | [] => return none
  | s :: rest => do
    if ← s.isCopyLoop name then return some rest
    else return (← withoutCopyLoop? name rest).map (s :: ·)

/-- The parameters and body of a constructor that passes its arguments on: a
    loop that copies them becomes a rest parameter. -/
def dropCopyLoop (arguments params body : List Node) : Except Fault (List Node × List Node) :=
  match arguments, params with
  | [spread argument], [] =>
    match argument.ungroup with
    | identifier name => do
      match ← withoutCopyLoop? name body with
      | some rest => return ([restPattern (identifier name)], rest)
      | none => return (params, body)
    | _ => return (params, body)
  | _, _ => return (params, body)

/-- `var name;` -/
def isEmptyDeclarator (name : Text) : Node → Bool
  | declarator id none => id.isNamed name
  | _ => false

end Node

/-! ## Calls of the superclass -/

/-- A statement that calls the superclass. -/
structure SuperCall where
  arguments : List Node
  /-- The variable that takes the result. -/
  holder : Option Text
  /-- Whether the statement declares this variable. -/
  declares : Bool

namespace Heritage

variable (h : Heritage)

/-- `args` in `[this].concat(args)`. -/
def concatenated? (n : Node) : Option Node :=
  match n.ungroup with
  | .call callee [argument] _ =>
    match callee.isMemberNamed "concat", callee.receiver?.map Node.ungroup with
    | true, some (.array [some .thisExpr]) => some argument
    | _, _ => none
  | _ => none

/-- The arguments of the superclass in a call of its `call` or `apply`. -/
def forwardedArguments? (name : Text) (receiver : Node) (arguments : List Node) :
    Except Fault (Option (List Node)) := do
  if name = Text.ofString "call" then
    if ← h.isSuperRef receiver then
      return match arguments with
        | .thisExpr :: rest => some rest
        | _ => none
    else return none
  else if name = Text.ofString "apply" then
    match arguments with
    | [target, list] =>
      if (← h.isSuperRef receiver) && target.isThis then return some [.spread list]
      else match receiver.isMemberNamed "call", receiver.receiver? with
        | true, some inner =>
          if ← h.isSuperRef inner then return (concatenated? list).map fun rest => [.spread rest]
          else return none
        | _, _ => return none
    | _ => return none
  else return none

/-- What remains of a call of the superclass when `… || this` and `a && …`
    around it are taken off. -/
def bareCall (e : Node) : Node :=
  let e := match e.ungroup with
    | .logical operator left right =>
      if operator = Text.ofString "||" ∧ right.ungroup.isThis then left.ungroup
      else .logical operator left right
    | e => e
  match e with
  | .logical operator _ right => if operator = Text.ofString "&&" then right.ungroup else e
  | e => e

/-- The arguments that an expression passes to the superclass. -/
def superArguments? (e : Node) : Except Fault (Option (List Node)) :=
  match bareCall e with
  | .call (.member receiver property computed _) arguments _ =>
    match property.propertyName? computed with
    | some name => h.forwardedArguments? name receiver arguments
    | none => .ok none
  | _ => .ok none

/-- The call of the superclass in a statement. -/
def superCall? (s : Node) : Except Fault (Option SuperCall) :=
  let found (e : Node) (holder : Option Text) (declares : Bool) : Except Fault
      (Option SuperCall) := do
    return (← h.superArguments? e).map fun arguments => ⟨arguments, holder, declares⟩
  match s with
  | .returnStmt (some e) => found e none false
  | .exprStmt e =>
    match e.ungroup with
    | .assignment operator (.identifier holder) right =>
      if operator = Text.ofString "=" then found right (some holder) false
      else found (.assignment operator (.identifier holder) right) none false
    | e => found e none false
  | .varDecl _ [d] => do
    match ← d.declaredTarget with
    | some (.identifier holder) =>
      match ← d.declaredValue with
      | some init => found init (some holder) true
      | none => return none
    | _ => return none
  | _ => .ok none

/-- The first statement that calls the superclass, with those around it. -/
def findSuperCall? :
    (done : List Node) → List Node → Except Fault (Option (List Node × SuperCall × List Node))
  | _, [] => .ok none
  | done, s :: rest => do
    match ← h.superCall? s with
    | some c => return some (done, c, rest)
    | none => findSuperCall? (done ++ [s]) rest

end Heritage

/-- A constructor on its way to the one that was written. -/
structure ConstructorDraft where
  params : List Node
  body : List Node
  /-- The variable that holds `this` and can be put back. -/
  inlined : Option Text := none
  /-- The variable that holds `this` and is kept. -/
  kept : Option Text := none

namespace ConstructorDraft

/-- The statement that gives `this` to a variable. -/
def bindThis (holder : Text) (declares : Bool) : Node :=
  if declares then .varDecl .var [.declarator (.identifier holder) (some .thisExpr)]
  else .exprStmt (.assignment "=" (.identifier holder) .thisExpr)

/-- The constructor with `super(…)` in place of a call of the superclass. -/
def withSuper (params before : List Node) (c : SuperCall) (after whole : List Node) :
    Except Fault ConstructorDraft := do
  let statement : Node := .exprStmt (.call .superExpr c.arguments false)
  match c.holder with
  | none =>
    let (params, body) ← Node.dropCopyLoop c.arguments params (before ++ [statement] ++ after)
    return { params, body }
  | some holder =>
    let reassigned := Node.isReassigned (before ++ after) holder
    if reassigned || Node.isUsedInFunction whole holder then
      let (params, body) ← Node.dropCopyLoop c.arguments params
        (before ++ [statement, bindThis holder c.declares] ++ after)
      return { params, body, kept := if reassigned then none else some holder }
    else
      let (params, body) ← Node.dropCopyLoop c.arguments params (before ++ [statement] ++ after)
      return {
        params
        body := Node.filterDeclarators (!·.isEmptyDeclarator holder) body
        inlined := some holder }

/-- Whether a statement at the end of a constructor returns nothing new. -/
def isRedundantReturn (kept : Option Text) : Node → Bool
  | .returnStmt none => true
  | .returnStmt (some e) => e.isThis || kept.any e.isNamed
  | _ => false

/-- A body less a redundant `return` at its end. -/
def dropReturn (kept : Option Text) (body : List Node) : List Node :=
  if body.getLast?.any (isRedundantReturn kept) then body.dropLast else body

/-- The constructor as it was written, in place of the compiled body; `none` if
    it is left out. -/
def finish (c : ConstructorDraft) (compiled : Node) : Except Fault (Option Node) := do
  Node.checkDeclarators c.body
  let body := (Node.inlineThisAliases c.inlined.toList c.body).map Node.definedProperty
  let body := dropReturn c.kept body
  if body.isEmpty || Node.isDefaultConstructor c.params body then return none
  else return some (.method (.identifier "constructor")
    (.functionExpr none c.params (compiled.withStatements body) false false)
    .constructor false false)

end ConstructorDraft

namespace ClassNames

/-- `_classCallCheck(this, C)` -/
def isCallCheck (names : ClassNames) : Node → Bool
  | .exprStmt e =>
    match e.ungroup with
    | .call _ [target, c] _ => target.isThis && names.isClassRef c
    | _ => false
  | _ => false

/-- The draft of a constructor, from a compiled one. A class with a superclass
    has to call it. -/
def draft? (names : ClassNames) (h : Heritage) (params : List Node) (compiled : Node) :
    Except Fault (Option ConstructorDraft) := do
  let body := ((← compiled.statements).filter (!names.isCallCheck ·)).map Node.unwrapAssertions
  if h.superClass.isSome then
    match ← h.findSuperCall? [] body with
    | some (before, c, after) =>
      return some (← ConstructorDraft.withSuper params before c after body)
    | none => return if body.isEmpty then some { params, body } else none
  else return some { params, body }

end ClassNames

end Resugar
