import Resugar.Tree.Node

/-!
# Fields

Below a node stand other nodes, in *fields*. A field holds one node, or none, or
a list of nodes with possible holes. `Node.fields` names the fields of a node in
source order and says which of them are *walked*: a name that refers to no
binding, such as the property of `a.b`, a key or an imported name, is a node but
is not walked. `Node.withSlots` puts other contents into the fields.

`Node.fold` is recursion on nodes: it combines, at every node, what it has
computed for the nodes in its fields. `Node.fold_eq` is its one equation, in
terms of `Node.fields`.
-/

namespace Resugar

/-- The contents of a field. -/
inductive Slot (α : Type) where
  | single (child : Option α)
  | list (items : List (Option α))

namespace Slot

variable {α β : Type}

/-- The contents of a field in order, holes left out. -/
def nodes : Slot α → List α
  | single child => child.toList
  | list items => items.filterMap id

/-- The contents of a field in order, with the holes of a list. -/
def items : Slot α → List (Option α)
  | single child => [child]
  | list items => items

/-- The first node of a field, if there is one. -/
def child? (s : Slot α) : Option α :=
  s.nodes.head?

/-- The first node of a field, or the one that stood there. -/
def child (s : Slot α) (old : α) : α :=
  s.child?.getD old

/-- A function applied to all contents. -/
def map (f : α → β) : Slot α → Slot β
  | single child => .single (child.map f)
  | list items => .list (items.map (Option.map f))

/-- An effect applied to all contents, in order. -/
def mapM {m : Type → Type} [Monad m] (f : α → m β) : Slot α → m (Slot β)
  | single child => return .single (← child.mapM f)
  | list items => return .list (← items.mapM (Option.mapM f))

theorem nodes_map_some (f : α → β) (as : List α) :
    ((list (as.map some)).map f).nodes = as.map f := by
  induction as with
  | nil => rfl
  | cons a as ih => exact congrArg (f a :: ·) ih

end Slot

/-- A field of a node: its name, whether it is walked, and its contents. -/
structure Field (α : Type) where
  name : String
  walked : Bool
  slot : Slot α

namespace Field

variable {α β : Type}

/-- A field of at most one node. -/
def single (name : String) (walked : Bool) (child : Option α) : Field α :=
  ⟨name, walked, .single child⟩

/-- A field of a list of nodes. -/
def list (name : String) (walked : Bool) (items : List (Option α)) : Field α :=
  ⟨name, walked, .list items⟩

/-- A function applied to all contents. -/
def map (f : α → β) (field : Field α) : Field β :=
  ⟨field.name, field.walked, field.slot.map f⟩

/-- The contents of the field if it is walked. -/
def walkedNodes (field : Field α) : List α :=
  if field.walked then field.slot.nodes else []

end Field

namespace Node

/-- The fields of a node, in source order. -/
def fields : Node → List (Field Node)
  | template _ expressions => [.list "expressions" true (expressions.map some)]
  | taggedTemplate tag quasi => [.single "tag" true (some tag), .single "quasi" true (some quasi)]
  | array elements => [.list "elements" true elements]
  | object entries => [.list "properties" true (entries.map some)]
  | entry key value _ computed _ _ =>
    [.single "key" computed (some key), .single "value" true (some value)]
  | spread argument => [.single "argument" true (some argument)]
  | unary _ argument => [.single "argument" true (some argument)]
  | update _ argument _ => [.single "argument" true (some argument)]
  | binary _ left right => [.single "left" true (some left), .single "right" true (some right)]
  | logical _ left right => [.single "left" true (some left), .single "right" true (some right)]
  | assignment _ left right => [.single "left" true (some left), .single "right" true (some right)]
  | conditional test consequent alternate =>
    [.single "test" true (some test),
      .single "consequent" true (some consequent),
      .single "alternate" true (some alternate)]
  | call callee arguments _ =>
    [.single "callee" true (some callee), .list "arguments" true (arguments.map some)]
  | newExpr callee arguments =>
    [.single "callee" true (some callee), .list "arguments" true (arguments.map some)]
  | member receiver property computed _ =>
    [.single "object" true (some receiver), .single "property" computed (some property)]
  | sequence expressions => [.list "expressions" true (expressions.map some)]
  | parenthesized expression => [.single "expression" true (some expression)]
  | awaitExpr argument => [.single "argument" true (some argument)]
  | yieldExpr argument _ => [.single "argument" true argument]
  | functionExpr id params body _ _ =>
    [.single "id" true id, .list "params" true (params.map some), .single "body" true (some body)]
  | arrow params body _ => [.list "params" true (params.map some), .single "body" true (some body)]
  | classExpr id superClass body =>
    [.single "id" true id, .single "superClass" true superClass, .single "body" true (some body)]
  | objectPattern entries => [.list "properties" true (entries.map some)]
  | arrayPattern elements => [.list "elements" true elements]
  | defaultPattern left right =>
    [.single "left" true (some left), .single "right" true (some right)]
  | restPattern argument => [.single "argument" true (some argument)]
  | element _ attributes children _ =>
    [.list "attributes" true (attributes.map some), .list "children" true (children.map some)]
  | namedAttribute _ value => [.single "value" true value]
  | spreadAttribute argument => [.single "argument" true (some argument)]
  | container expression => [.single "expression" true (some expression)]
  | program body => [.list "body" true (body.map some)]
  | exprStmt expression => [.single "expression" true (some expression)]
  | block body => [.list "body" true (body.map some)]
  | returnStmt argument => [.single "argument" true argument]
  | throwStmt argument => [.single "argument" true (some argument)]
  | ifStmt test consequent alternate =>
    [.single "test" true (some test),
      .single "consequent" true (some consequent),
      .single "alternate" true alternate]
  | forStmt init test step body =>
    [.single "init" true init,
      .single "test" true test,
      .single "update" true step,
      .single "body" true (some body)]
  | forInStmt left right body _ _ =>
    [.single "left" true (some left), .single "right" true (some right),
      .single "body" true (some body)]
  | whileStmt test body => [.single "test" true (some test), .single "body" true (some body)]
  | doWhileStmt body test => [.single "body" true (some body), .single "test" true (some test)]
  | labeledStmt _ body => [.single "body" true (some body)]
  | catchClause param body => [.single "param" true param, .single "body" true (some body)]
  | tryStmt body handler finalizer =>
    [.single "block" true (some body), .single "handler" true handler,
      .single "finalizer" true finalizer]
  | switchCase test consequent =>
    [.single "test" true test, .list "consequent" true (consequent.map some)]
  | switchStmt discriminant cases =>
    [.single "discriminant" true (some discriminant), .list "cases" true (cases.map some)]
  | declarator id init => [.single "id" true (some id), .single "init" true init]
  | varDecl _ declarators => [.list "declarations" true (declarators.map some)]
  | functionDecl id params body _ _ =>
    [.single "id" true id, .list "params" true (params.map some), .single "body" true (some body)]
  | method key value _ _ computed =>
    [.single "key" computed (some key), .single "value" true (some value)]
  | classField key value _ computed =>
    [.single "key" computed (some key), .single "value" true value]
  | classBody body => [.list "body" true (body.map some)]
  | classDecl id superClass body =>
    [.single "id" true id, .single "superClass" true superClass, .single "body" true (some body)]
  | importDefault binding => [.single "local" true (some binding)]
  | importNamespace binding => [.single "local" true (some binding)]
  | importName imported binding =>
    [.single "imported" false (some imported), .single "local" true (some binding)]
  | importDecl specifiers source =>
    [.list "specifiers" true (specifiers.map some), .single "source" false (some source)]
  | exportName binding exported =>
    [.single "local" true (some binding), .single "exported" false (some exported)]
  | exportNamed declaration specifiers source =>
    [.single "declaration" true declaration,
      .list "specifiers" true (specifiers.map some),
      .single "source" false source]
  | exportDefault declaration => [.single "declaration" true (some declaration)]
  | exportAll source exported =>
    [.single "source" false (some source), .single "exported" false exported]
  | _ => []

/-- A node with other contents in its fields: those of the field at position `i`
    are `s i`. A field that needs a node and gets none keeps its own. -/
def setSlots (s : Nat → Slot Node) : Node → Node
  | template quasis _ => template quasis (s 0).nodes
  | taggedTemplate tag quasi => taggedTemplate ((s 0).child tag) ((s 1).child quasi)
  | array _ => array (s 0).items
  | object _ => object (s 0).nodes
  | entry key value kind computed shorthand isMethod =>
    entry ((s 0).child key) ((s 1).child value) kind computed shorthand isMethod
  | spread argument => spread ((s 0).child argument)
  | unary operator argument => unary operator ((s 0).child argument)
  | update operator argument leading => update operator ((s 0).child argument) leading
  | binary operator left right => binary operator ((s 0).child left) ((s 1).child right)
  | logical operator left right => logical operator ((s 0).child left) ((s 1).child right)
  | assignment operator left right => assignment operator ((s 0).child left) ((s 1).child right)
  | conditional test consequent alternate =>
    conditional ((s 0).child test) ((s 1).child consequent) ((s 2).child alternate)
  | call callee _ isOptional => call ((s 0).child callee) (s 1).nodes isOptional
  | newExpr callee _ => newExpr ((s 0).child callee) (s 1).nodes
  | member receiver property computed isOptional =>
    member ((s 0).child receiver) ((s 1).child property) computed isOptional
  | sequence _ => sequence (s 0).nodes
  | parenthesized expression => parenthesized ((s 0).child expression)
  | awaitExpr argument => awaitExpr ((s 0).child argument)
  | yieldExpr _ delegate => yieldExpr (s 0).child? delegate
  | functionExpr _ _ body isAsync isGenerator =>
    functionExpr (s 0).child? (s 1).nodes ((s 2).child body) isAsync isGenerator
  | arrow _ body isAsync => arrow (s 0).nodes ((s 1).child body) isAsync
  | classExpr _ _ body => classExpr (s 0).child? (s 1).child? ((s 2).child body)
  | objectPattern _ => objectPattern (s 0).nodes
  | arrayPattern _ => arrayPattern (s 0).items
  | defaultPattern left right => defaultPattern ((s 0).child left) ((s 1).child right)
  | restPattern argument => restPattern ((s 0).child argument)
  | element name _ _ selfClosing => element name (s 0).nodes (s 1).nodes selfClosing
  | namedAttribute name _ => namedAttribute name (s 0).child?
  | spreadAttribute argument => spreadAttribute ((s 0).child argument)
  | container expression => container ((s 0).child expression)
  | program _ => program (s 0).nodes
  | exprStmt expression => exprStmt ((s 0).child expression)
  | block _ => block (s 0).nodes
  | returnStmt _ => returnStmt (s 0).child?
  | throwStmt argument => throwStmt ((s 0).child argument)
  | ifStmt test consequent _ => ifStmt ((s 0).child test) ((s 1).child consequent) (s 2).child?
  | forStmt _ _ _ body => forStmt (s 0).child? (s 1).child? (s 2).child? ((s 3).child body)
  | forInStmt left right body isOf isAwait =>
    forInStmt ((s 0).child left) ((s 1).child right) ((s 2).child body) isOf isAwait
  | whileStmt test body => whileStmt ((s 0).child test) ((s 1).child body)
  | doWhileStmt body test => doWhileStmt ((s 0).child body) ((s 1).child test)
  | labeledStmt label body => labeledStmt label ((s 0).child body)
  | catchClause _ body => catchClause (s 0).child? ((s 1).child body)
  | tryStmt body _ _ => tryStmt ((s 0).child body) (s 1).child? (s 2).child?
  | switchCase _ _ => switchCase (s 0).child? (s 1).nodes
  | switchStmt discriminant _ => switchStmt ((s 0).child discriminant) (s 1).nodes
  | declarator id _ => declarator ((s 0).child id) (s 1).child?
  | varDecl kind _ => varDecl kind (s 0).nodes
  | functionDecl _ _ body isAsync isGenerator =>
    functionDecl (s 0).child? (s 1).nodes ((s 2).child body) isAsync isGenerator
  | method key value kind isStatic computed =>
    method ((s 0).child key) ((s 1).child value) kind isStatic computed
  | classField key _ isStatic computed =>
    classField ((s 0).child key) (s 1).child? isStatic computed
  | classBody _ => classBody (s 0).nodes
  | classDecl _ _ body => classDecl (s 0).child? (s 1).child? ((s 2).child body)
  | importDefault binding => importDefault ((s 0).child binding)
  | importNamespace binding => importNamespace ((s 0).child binding)
  | importName imported binding => importName ((s 0).child imported) ((s 1).child binding)
  | importDecl _ source => importDecl (s 0).nodes ((s 1).child source)
  | exportName binding exported => exportName ((s 0).child binding) ((s 1).child exported)
  | exportNamed _ _ _ => exportNamed (s 0).child? (s 1).nodes (s 2).child?
  | exportDefault declaration => exportDefault ((s 0).child declaration)
  | exportAll source _ => exportAll ((s 0).child source) (s 1).child?
  | n => n

/-- A node with other contents in its fields, in the order of `fields`. -/
def withSlots (n : Node) (slots : List (Slot Node)) : Node :=
  n.setSlots fun i => slots.getD i (.single none)

/-- The walked nodes below a node, in source order. -/
def children (n : Node) : List Node :=
  n.fields.flatMap Field.walkedNodes

/-! ## Recursion -/

section Fold

variable {β : Type} (alg : Node → List (Field (Node × β)) → β)

mutual

/-- Recursion on nodes: at every node `alg` sees the node and its fields, with
    each node in them next to what has been computed for it. -/
def fold : Node → β
  | n@(template _ expressions) => alg n [.list "expressions" true (foldList expressions)]
  | n@(taggedTemplate tag quasi) =>
    alg n [.single "tag" true (some (tag, fold tag)),
      .single "quasi" true (some (quasi, fold quasi))]
  | n@(array elements) => alg n [.list "elements" true (foldHoles elements)]
  | n@(object entries) => alg n [.list "properties" true (foldList entries)]
  | n@(entry key value _ computed _ _) =>
    alg n [.single "key" computed (some (key, fold key)),
      .single "value" true (some (value, fold value))]
  | n@(spread argument) => alg n [.single "argument" true (some (argument, fold argument))]
  | n@(unary _ argument) => alg n [.single "argument" true (some (argument, fold argument))]
  | n@(update _ argument _) => alg n [.single "argument" true (some (argument, fold argument))]
  | n@(binary _ left right) =>
    alg n [.single "left" true (some (left, fold left)),
      .single "right" true (some (right, fold right))]
  | n@(logical _ left right) =>
    alg n [.single "left" true (some (left, fold left)),
      .single "right" true (some (right, fold right))]
  | n@(assignment _ left right) =>
    alg n [.single "left" true (some (left, fold left)),
      .single "right" true (some (right, fold right))]
  | n@(conditional test consequent alternate) =>
    alg n [.single "test" true (some (test, fold test)),
      .single "consequent" true (some (consequent, fold consequent)),
      .single "alternate" true (some (alternate, fold alternate))]
  | n@(call callee arguments _) =>
    alg n [.single "callee" true (some (callee, fold callee)),
      .list "arguments" true (foldList arguments)]
  | n@(newExpr callee arguments) =>
    alg n [.single "callee" true (some (callee, fold callee)),
      .list "arguments" true (foldList arguments)]
  | n@(member receiver property computed _) =>
    alg n [.single "object" true (some (receiver, fold receiver)),
      .single "property" computed (some (property, fold property))]
  | n@(sequence expressions) => alg n [.list "expressions" true (foldList expressions)]
  | n@(parenthesized expression) =>
    alg n [.single "expression" true (some (expression, fold expression))]
  | n@(awaitExpr argument) => alg n [.single "argument" true (some (argument, fold argument))]
  | n@(yieldExpr argument _) => alg n [.single "argument" true (foldOption argument)]
  | n@(functionExpr id params body _ _) =>
    alg n [.single "id" true (foldOption id), .list "params" true (foldList params),
      .single "body" true (some (body, fold body))]
  | n@(arrow params body _) =>
    alg n [.list "params" true (foldList params), .single "body" true (some (body, fold body))]
  | n@(classExpr id superClass body) =>
    alg n [.single "id" true (foldOption id), .single "superClass" true (foldOption superClass),
      .single "body" true (some (body, fold body))]
  | n@(objectPattern entries) => alg n [.list "properties" true (foldList entries)]
  | n@(arrayPattern elements) => alg n [.list "elements" true (foldHoles elements)]
  | n@(defaultPattern left right) =>
    alg n [.single "left" true (some (left, fold left)),
      .single "right" true (some (right, fold right))]
  | n@(restPattern argument) => alg n [.single "argument" true (some (argument, fold argument))]
  | n@(element _ attributes children _) =>
    alg n [.list "attributes" true (foldList attributes), .list "children" true (foldList children)]
  | n@(namedAttribute _ value) => alg n [.single "value" true (foldOption value)]
  | n@(spreadAttribute argument) => alg n [.single "argument" true (some (argument, fold argument))]
  | n@(container expression) =>
    alg n [.single "expression" true (some (expression, fold expression))]
  | n@(program body) => alg n [.list "body" true (foldList body)]
  | n@(exprStmt expression) =>
    alg n [.single "expression" true (some (expression, fold expression))]
  | n@(block body) => alg n [.list "body" true (foldList body)]
  | n@(returnStmt argument) => alg n [.single "argument" true (foldOption argument)]
  | n@(throwStmt argument) => alg n [.single "argument" true (some (argument, fold argument))]
  | n@(ifStmt test consequent alternate) =>
    alg n [.single "test" true (some (test, fold test)),
      .single "consequent" true (some (consequent, fold consequent)),
      .single "alternate" true (foldOption alternate)]
  | n@(forStmt init test step body) =>
    alg n [.single "init" true (foldOption init), .single "test" true (foldOption test),
      .single "update" true (foldOption step), .single "body" true (some (body, fold body))]
  | n@(forInStmt left right body _ _) =>
    alg n [.single "left" true (some (left, fold left)),
      .single "right" true (some (right, fold right)), .single "body" true (some (body, fold body))]
  | n@(whileStmt test body) =>
    alg n [.single "test" true (some (test, fold test)),
      .single "body" true (some (body, fold body))]
  | n@(doWhileStmt body test) =>
    alg n [.single "body" true (some (body, fold body)),
      .single "test" true (some (test, fold test))]
  | n@(labeledStmt _ body) => alg n [.single "body" true (some (body, fold body))]
  | n@(catchClause param body) =>
    alg n [.single "param" true (foldOption param), .single "body" true (some (body, fold body))]
  | n@(tryStmt body handler finalizer) =>
    alg n [.single "block" true (some (body, fold body)),
      .single "handler" true (foldOption handler), .single "finalizer" true (foldOption finalizer)]
  | n@(switchCase test consequent) =>
    alg n [.single "test" true (foldOption test), .list "consequent" true (foldList consequent)]
  | n@(switchStmt discriminant cases) =>
    alg n [.single "discriminant" true (some (discriminant, fold discriminant)),
      .list "cases" true (foldList cases)]
  | n@(declarator id init) =>
    alg n [.single "id" true (some (id, fold id)), .single "init" true (foldOption init)]
  | n@(varDecl _ declarators) => alg n [.list "declarations" true (foldList declarators)]
  | n@(functionDecl id params body _ _) =>
    alg n [.single "id" true (foldOption id), .list "params" true (foldList params),
      .single "body" true (some (body, fold body))]
  | n@(method key value _ _ computed) =>
    alg n [.single "key" computed (some (key, fold key)),
      .single "value" true (some (value, fold value))]
  | n@(classField key value _ computed) =>
    alg n [.single "key" computed (some (key, fold key)), .single "value" true (foldOption value)]
  | n@(classBody body) => alg n [.list "body" true (foldList body)]
  | n@(classDecl id superClass body) =>
    alg n [.single "id" true (foldOption id), .single "superClass" true (foldOption superClass),
      .single "body" true (some (body, fold body))]
  | n@(importDefault binding) => alg n [.single "local" true (some (binding, fold binding))]
  | n@(importNamespace binding) => alg n [.single "local" true (some (binding, fold binding))]
  | n@(importName imported binding) =>
    alg n [.single "imported" false (some (imported, fold imported)),
      .single "local" true (some (binding, fold binding))]
  | n@(importDecl specifiers source) =>
    alg n [.list "specifiers" true (foldList specifiers),
      .single "source" false (some (source, fold source))]
  | n@(exportName binding exported) =>
    alg n [.single "local" true (some (binding, fold binding)),
      .single "exported" false (some (exported, fold exported))]
  | n@(exportNamed declaration specifiers source) =>
    alg n [.single "declaration" true (foldOption declaration),
      .list "specifiers" true (foldList specifiers), .single "source" false (foldOption source)]
  | n@(exportDefault declaration) =>
    alg n [.single "declaration" true (some (declaration, fold declaration))]
  | n@(exportAll source exported) =>
    alg n [.single "source" false (some (source, fold source)),
      .single "exported" false (foldOption exported)]
  | n => alg n []

/-- `fold` in a field of at most one node. -/
def foldOption : Option Node → Option (Node × β)
  | none => none
  | some n => some (n, fold n)

/-- `fold` in a field of a list of nodes. -/
def foldList : List Node → List (Option (Node × β))
  | [] => []
  | n :: ns => some (n, fold n) :: foldList ns

/-- `fold` in a field of a list of nodes with holes. -/
def foldHoles : List (Option Node) → List (Option (Node × β))
  | [] => []
  | none :: ns => none :: foldHoles ns
  | some n :: ns => some (n, fold n) :: foldHoles ns

end

/-- What the recursion computes in a field of at most one node. -/
theorem foldOption_eq (o : Option Node) :
    foldOption alg o = o.map fun n => (n, fold alg n) := by
  cases o <;> rfl

/-- What the recursion computes in a field of a list of nodes. -/
theorem foldList_eq (ns : List Node) :
    foldList alg ns = (ns.map some).map (Option.map fun n => (n, fold alg n)) := by
  induction ns with
  | nil => rfl
  | cons n ns ih => simp [foldList, ih]

/-- What the recursion computes in a field of a list with holes. -/
theorem foldHoles_eq (ns : List (Option Node)) :
    foldHoles alg ns = ns.map (Option.map fun n => (n, fold alg n)) := by
  induction ns with
  | nil => rfl
  | cons o ns ih => cases o <;> simp [foldHoles, ih]

/-- What is computed for a node comes from the nodes in its fields. -/
theorem fold_eq (n : Node) :
    fold alg n = alg n (n.fields.map (Field.map fun c => (c, fold alg c))) := by
  cases n <;>
    first
    | rfl
    | (refine Eq.trans (congrArg (alg _) ?_) rfl
       simp only [foldOption_eq, foldList_eq, foldHoles_eq]
       rfl)

end Fold

end Node

end Resugar
