import Resugar.Number.Literal

/-!
# The syntax tree

One type of nodes holds programs, statements, expressions, patterns, class
members, module items and markup. The kinds are those of the usual JavaScript
tree format, with markup elements added, and a kind never restricts what stands
below it: a step of a pass may put any node where any other one stood.

Grouping parentheses are nodes (`Node.parenthesized`). Source that is carried
through as it is, a regular expression for instance, is `Node.raw`.
-/

namespace Resugar

/-- The value of a literal. -/
inductive Value where
  | null
  | bool (b : Bool)
  | number (n : Number)
  | string (t : Text)
  deriving DecidableEq

/-- How an entry of an object literal or pattern defines its property. -/
inductive EntryKind where
  | init
  | get
  | set
  /-- Any other word, which is not printed. -/
  | other (word : Text)
  deriving DecidableEq

namespace EntryKind

/-- The word for a kind. -/
def word : EntryKind → Text
  | init => "init"
  | get => "get"
  | set => "set"
  | other word => word

/-- The kind with a given word. -/
def ofWord (word : Text) : EntryKind :=
  if word = Text.ofString "init" then init
  else if word = Text.ofString "get" then get
  else if word = Text.ofString "set" then set
  else other word

end EntryKind

/-- How a class member defines its method. -/
inductive MethodKind where
  | constructor
  | method
  | get
  | set
  /-- Any other word, which is not printed. -/
  | other (word : Text)
  deriving DecidableEq

namespace MethodKind

/-- The word for a kind. -/
def word : MethodKind → Text
  | constructor => "constructor"
  | method => "method"
  | get => "get"
  | set => "set"
  | other word => word

/-- The kind with a given word. -/
def ofWord (word : Text) : MethodKind :=
  if word = Text.ofString "constructor" then constructor
  else if word = Text.ofString "method" then method
  else if word = Text.ofString "get" then get
  else if word = Text.ofString "set" then set
  else other word

end MethodKind

/-- The keyword of a variable declaration. -/
inductive VariableKind where
  | var
  | lexical
  | constant
  /-- Any other keyword, `using` for instance. -/
  | other (keyword : Text)
  deriving DecidableEq

namespace VariableKind

/-- The keyword itself. -/
def keyword : VariableKind → Text
  | var => "var"
  | lexical => "let"
  | constant => "const"
  | other keyword => keyword

/-- The kind with a given keyword. -/
def ofKeyword (keyword : Text) : VariableKind :=
  if keyword = Text.ofString "var" then var
  else if keyword = Text.ofString "let" then lexical
  else if keyword = Text.ofString "const" then constant
  else other keyword

/-- The kind itself, or `var` in place of another keyword. -/
def orVar : VariableKind → VariableKind
  | other _ => var
  | kind => kind

end VariableKind

/-- A node of the syntax tree. -/
inductive Node where
  /-- Source text as it stands. -/
  | raw (text : Text)
  | identifier (name : Text)
  /-- A literal, with its spelling if it came from source. -/
  | literal (value : Value) (spelling : Option Text)
  | thisExpr
  /-- `super`, as a callee or a receiver. -/
  | superExpr
  /-- A template: pieces of text, with expressions between them. -/
  | template (quasis : List Text) (expressions : List Node)
  /-- A template with a tag before it. -/
  | taggedTemplate (tag quasi : Node)
  /-- `[a, , b]`; a missing element is a hole. -/
  | array (elements : List (Option Node))
  | object (entries : List Node)
  /-- An entry `key: value` of an object literal or pattern. -/
  | entry (key value : Node) (kind : EntryKind) (computed shorthand isMethod : Bool)
  /-- `...a`, in a literal or a call. -/
  | spread (argument : Node)
  /-- `-a`, `typeof a` -/
  | unary (operator : Text) (argument : Node)
  /-- `a++`, or `++a` if the operator leads. -/
  | update (operator : Text) (argument : Node) (leading : Bool)
  /-- `a + b` -/
  | binary (operator : Text) (left right : Node)
  /-- `a && b` -/
  | logical (operator : Text) (left right : Node)
  /-- `a = b`, `a += b` -/
  | assignment (operator : Text) (left right : Node)
  /-- `a ? b : c` -/
  | conditional (test consequent alternate : Node)
  /-- `f(a)`, `f?.(a)` -/
  | call (callee : Node) (arguments : List Node) (isOptional : Bool)
  /-- `new F(a)` -/
  | newExpr (callee : Node) (arguments : List Node)
  /-- `a.b`, `a[b]`, `a?.b` -/
  | member (receiver property : Node) (computed isOptional : Bool)
  /-- `a, b` -/
  | sequence (expressions : List Node)
  /-- `(a)`, as grouped in the source. -/
  | parenthesized (expression : Node)
  /-- `await a` -/
  | awaitExpr (argument : Node)
  /-- `yield a`, `yield* a` -/
  | yieldExpr (argument : Option Node) (delegate : Bool)
  | functionExpr (id : Option Node) (params : List Node) (body : Node) (isAsync isGenerator : Bool)
  /-- `(a) => b` -/
  | arrow (params : List Node) (body : Node) (isAsync : Bool)
  | classExpr (id superClass : Option Node) (body : Node)
  | objectPattern (entries : List Node)
  /-- `[a, , b]` as a pattern. -/
  | arrayPattern (elements : List (Option Node))
  /-- `a = b` as a pattern with a default. -/
  | defaultPattern (left right : Node)
  /-- `...a` as a pattern. -/
  | restPattern (argument : Node)
  /-- `<a>…</a>` -/
  | element (name : Text) (attributes children : List Node) (selfClosing : Bool)
  /-- `name=value` in a tag. -/
  | namedAttribute (name : Text) (value : Option Node)
  | spreadAttribute (argument : Node)
  /-- An expression in braces, between tags or as the value of an attribute. -/
  | container (expression : Node)
  | markupText (value : Text)
  | program (body : List Node)
  /-- `a;` -/
  | exprStmt (expression : Node)
  | block (body : List Node)
  | emptyStmt
  | debuggerStmt
  /-- `return a;` -/
  | returnStmt (argument : Option Node)
  /-- `throw a;` -/
  | throwStmt (argument : Node)
  /-- `if (a) b else c` -/
  | ifStmt (test consequent : Node) (alternate : Option Node)
  /-- `for (a; b; c) d` -/
  | forStmt (init test step : Option Node) (body : Node)
  /-- `for (a in b) c`, `for (a of b) c` -/
  | forInStmt (left right body : Node) (isOf isAwait : Bool)
  /-- `while (a) b` -/
  | whileStmt (test body : Node)
  /-- `do a while (b);` -/
  | doWhileStmt (body test : Node)
  /-- `break a;` -/
  | breakStmt (label : Option Text)
  /-- `continue a;` -/
  | continueStmt (label : Option Text)
  /-- `a: b` -/
  | labeledStmt (label : Text) (body : Node)
  /-- `catch (a) b` -/
  | catchClause (param : Option Node) (body : Node)
  /-- `try a catch b finally c` -/
  | tryStmt (body : Node) (handler finalizer : Option Node)
  /-- `case a: b`, `default: b` -/
  | switchCase (test : Option Node) (consequent : List Node)
  /-- `switch (a) …` -/
  | switchStmt (discriminant : Node) (cases : List Node)
  /-- `a = b` in a declaration. -/
  | declarator (id : Node) (init : Option Node)
  /-- `var a = b, c;` -/
  | varDecl (kind : VariableKind) (declarators : List Node)
  | functionDecl (id : Option Node) (params : List Node) (body : Node) (isAsync isGenerator : Bool)
  | method (key value : Node) (kind : MethodKind) (isStatic computed : Bool)
  | classField (key : Node) (value : Option Node) (isStatic computed : Bool)
  | classBody (body : List Node)
  | classDecl (id superClass : Option Node) (body : Node)
  /-- `a` in `import a from …` -/
  | importDefault (binding : Node)
  /-- `* as a` in `import * as a from …` -/
  | importNamespace (binding : Node)
  /-- `a as b` in an import list. -/
  | importName (imported binding : Node)
  /-- `import … from a;` -/
  | importDecl (specifiers : List Node) (source : Node)
  /-- `a as b` in an export list. -/
  | exportName (binding exported : Node)
  /-- `export var a = b;`, or an export list. -/
  | exportNamed (declaration : Option Node) (specifiers : List Node) (source : Option Node)
  /-- `export default a;` -/
  | exportDefault (declaration : Node)
  /-- `export * as b from a;` -/
  | exportAll (source : Node) (exported : Option Node)
  deriving Inhabited

namespace Node

/-- The name of a node's kind in the tree format. -/
def kindName : Node → String
  | raw .. => "Raw"
  | identifier .. => "Identifier"
  | literal .. => "Literal"
  | thisExpr => "ThisExpression"
  | superExpr => "Super"
  | template .. => "TemplateLiteral"
  | taggedTemplate .. => "TaggedTemplateExpression"
  | array .. => "ArrayExpression"
  | object .. => "ObjectExpression"
  | entry .. => "Property"
  | spread .. => "SpreadElement"
  | unary .. => "UnaryExpression"
  | update .. => "UpdateExpression"
  | binary .. => "BinaryExpression"
  | logical .. => "LogicalExpression"
  | assignment .. => "AssignmentExpression"
  | conditional .. => "ConditionalExpression"
  | call .. => "CallExpression"
  | newExpr .. => "NewExpression"
  | member .. => "MemberExpression"
  | sequence .. => "SequenceExpression"
  | parenthesized .. => "ParenthesizedExpression"
  | awaitExpr .. => "AwaitExpression"
  | yieldExpr .. => "YieldExpression"
  | functionExpr .. => "FunctionExpression"
  | arrow .. => "ArrowFunctionExpression"
  | classExpr .. => "ClassExpression"
  | objectPattern .. => "ObjectPattern"
  | arrayPattern .. => "ArrayPattern"
  | defaultPattern .. => "AssignmentPattern"
  | restPattern .. => "RestElement"
  | element .. => "JSXElement"
  | namedAttribute .. => "JSXAttribute"
  | spreadAttribute .. => "JSXSpreadAttribute"
  | container .. => "JSXExpressionContainer"
  | markupText .. => "JSXText"
  | program .. => "Program"
  | exprStmt .. => "ExpressionStatement"
  | block .. => "BlockStatement"
  | emptyStmt => "EmptyStatement"
  | debuggerStmt => "DebuggerStatement"
  | returnStmt .. => "ReturnStatement"
  | throwStmt .. => "ThrowStatement"
  | ifStmt .. => "IfStatement"
  | forStmt .. => "ForStatement"
  | forInStmt .. => "ForInStatement"
  | whileStmt .. => "WhileStatement"
  | doWhileStmt .. => "DoWhileStatement"
  | breakStmt .. => "BreakStatement"
  | continueStmt .. => "ContinueStatement"
  | labeledStmt .. => "LabeledStatement"
  | catchClause .. => "CatchClause"
  | tryStmt .. => "TryStatement"
  | switchCase .. => "SwitchCase"
  | switchStmt .. => "SwitchStatement"
  | declarator .. => "VariableDeclarator"
  | varDecl .. => "VariableDeclaration"
  | functionDecl .. => "FunctionDeclaration"
  | method .. => "MethodDefinition"
  | classField .. => "PropertyDefinition"
  | classBody .. => "ClassBody"
  | classDecl .. => "ClassDeclaration"
  | importDefault .. => "ImportDefaultSpecifier"
  | importNamespace .. => "ImportNamespaceSpecifier"
  | importName .. => "ImportSpecifier"
  | importDecl .. => "ImportDeclaration"
  | exportName .. => "ExportSpecifier"
  | exportNamed .. => "ExportNamedDeclaration"
  | exportDefault .. => "ExportDefaultDeclaration"
  | exportAll .. => "ExportAllDeclaration"

end Node

end Resugar
