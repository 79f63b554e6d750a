import Resugar.Concrete.Expression
import Resugar.Tree.Shape

/-!
# Concrete nodes as statements

`Site.statement` reads every kind of statement, and keeps a node of a kind it
does not know as the text it is. `Concrete.read` gives the reading of a whole
tree, and `Concrete.parse` the program it means.
-/

namespace Resugar

namespace Reading

variable (src : Source)

/-- The node as a declarator. -/
def declarator (r : Reading) : Except Fault Node := do
  let target ← (← r.site.required src "name").pattern
  let init ← (r.site.field? "value").mapM expression
  return .declarator target init

/-- The node as the first or second clause of a `for`, which may be empty. -/
def forClause (r : Reading) : Except Fault (Option Node) :=
  match r.kind with
  | "empty_statement" => return none
  | ";" => return none
  | "lexical_declaration" => some <$> r.statement
  | "variable_declaration" => some <$> r.statement
  | "expression_statement" => r.site.named.head?.mapM expression
  | _ => some <$> r.expression

/-- The node as a clause that catches. -/
def catchClause (r : Reading) : Except Fault Node := do
  let param ← (r.site.field? "parameter").mapM pattern
  let body ← (← r.site.required src "body").body
  return .catchClause param body

/-- The node as a case of a `switch` statement. -/
def switchCase (r : Reading) : Except Fault Node := do
  let test := r.site.field? "value"
  let body ← ((r.site.fieldAll "body").filter (!·.label.isExtra)).mapM statement
  return .switchCase (← test.mapM expression) body

/-- The node as an entry of an import list. -/
def importName (r : Reading) : Except Fault Node := do
  let name ← r.site.required src "name"
  let binding := (r.site.field? "alias").getD name
  return .importName (← name.moduleName src) (← binding.identifier src)

/-- The node as an entry of an export list. -/
def exportName (r : Reading) : Except Fault Node := do
  let name ← r.site.required src "name"
  let exported := (r.site.field? "alias").getD name
  return .exportName (← name.moduleName src) (← exported.moduleName src)

/-- The node as a part of an import clause; other kinds are passed over. -/
def importPart (r : Reading) : Except Fault (List Node) :=
  match r.kind with
  | "identifier" => do return [.importDefault (← r.identifier src)]
  | "namespace_import" => do return [.importNamespace (← (← r.site.first).identifier src)]
  | "named_imports" => r.site.named.mapM (·.importName src)
  | _ => return []

end Reading

namespace Node

def isVarDecl : Node → Bool
  | varDecl .. => true
  | _ => false

end Node

namespace Site

variable (src : Source) (s : Site)

/-- The declarators of a declaration. -/
def declarators : Except Fault (List Node) :=
  (s.named.filter (·.kind == "variable_declarator")).mapM (·.declarator src)

/-- The keyword of a lexical declaration. -/
def lexicalKind : Except Fault VariableKind :=
  match s.field? "kind", s.children.head? with
  | some c, _ => return if c.kind == "const" then .constant else .lexical
  | none, some c => return if c.kind == "const" then .constant else .lexical
  | none, none => throw .missingChild

/-- The node as an `if` statement. -/
def ifStatement : Except Fault Node := do
  let alternate ← (s.field? "alternative").mapM fun c => do (← c.site.first).statement
  let test ← (← s.required src "condition").condition
  let consequent ← (← s.required src "consequence").statement
  return .ifStmt test consequent alternate

/-- The node as a `for` statement. -/
def forStatement : Except Fault Node := do
  let init ← (s.field? "initializer").mapM Reading.forClause
  let test ← (s.field? "condition").mapM Reading.forClause
  if test.join.any Node.isVarDecl then throw .misplacedChild
  let step ← (s.field? "increment").mapM Reading.expression
  let body ← (← s.required src "body").statement
  return .forStmt init.join test.join step body

/-- The head of a loop over a collection: a pattern, or a declaration of one. -/
def forTarget (left : Reading) : Except Fault Node :=
  match s.field? "kind" with
  | some k => do
    let kind : VariableKind :=
      if k.kind == "var" then .var else if k.kind == "const" then .constant else .lexical
    let target ← left.pattern
    let init ← (s.field? "value").mapM Reading.expression
    return .varDecl kind [.declarator target init]
  | none => left.pattern

/-- The node as a `for` statement over a collection. -/
def forInStatement : Except Fault Node := do
  let left ← s.forTarget (← s.required src "left")
  let right ← (← s.required src "right").expression
  let body ← (← s.required src "body").statement
  let isOf := (s.field? "operator").any (·.kind == "of")
  return .forInStmt left right body isOf (s.hasToken "await")

/-- The node as a `try` statement. -/
def tryStatement : Except Fault Node := do
  let handler ← (s.field? "handler").mapM (·.catchClause src)
  let finalizer ← (s.field? "finalizer").mapM fun c => do (← c.site.required src "body").body
  let body ← (← s.required src "body").body
  return .tryStmt body handler finalizer

/-- The node as a `switch` statement. -/
def switchStatement : Except Fault Node := do
  let cases ← (← s.required src "body").site.named.mapM Reading.switchCase
  let discriminant ← (← s.required src "value").condition
  return .switchStmt discriminant cases

/-- The node as an import. -/
def importStatement : Except Fault Node := do
  let source ← (← s.required src "source").expression
  if !source.isLiteral then throw .misplacedChild
  let parts ← match s.ofKind? "import_clause" with
    | some clause => clause.site.named.mapM (·.importPart src)
    | none => pure []
  return .importDecl parts.flatten source

/-- The node as an export of everything, under a name if there is one. -/
def exportAllStatement (source : Node) : Except Fault Node := do
  let exported ← (s.ofKind? "namespace_export").mapM fun c => do (← c.site.first).moduleName src
  return .exportAll source exported

/-- The node as an export of a list of names. -/
def exportListStatement (source : Option Node) : Except Fault Node := do
  let names ← match s.ofKind? "export_clause" with
    | some clause => clause.site.named.mapM (·.exportName src)
    | none => pure []
  return .exportNamed none names source

/-- The node as an export. -/
def exportStatement : Except Fault Node := do
  let source ← (s.field? "source").mapM Reading.expression
  if source.any (!·.isLiteral) then throw .misplacedChild
  match s.hasToken "default", s.field? "declaration", s.field? "value" with
  | true, some declaration, _ => return .exportDefault (← declaration.statement)
  | true, none, some value => return .exportDefault (← value.expression)
  | _, some declaration, _ => return .exportNamed (some (← declaration.statement)) [] none
  | _, none, _ =>
    match s.hasToken "*", source with
    | true, some source => s.exportAllStatement src source
    | _, _ => s.exportListStatement src source

/-- The meaning of a node as a statement. -/
def statement : Except Fault Node :=
  match s.label.kind with
  | "expression_statement" => do return .exprStmt (← s.firstExpression)
  | "variable_declaration" => do return .varDecl .var (← s.declarators src)
  | "lexical_declaration" => do
    let kind ← s.lexicalKind
    return .varDecl kind (← s.declarators src)
  | "function_declaration" => function
  | "generator_function_declaration" => function
  | "class_declaration" => do
    let c ← s.classParts src
    return .classDecl c.name c.superClass c.body
  | "statement_block" => s.block
  | "empty_statement" => return .emptyStmt
  | "debugger_statement" => return .debuggerStmt
  | "if_statement" => s.ifStatement src
  | "for_statement" => s.forStatement src
  | "for_in_statement" => s.forInStatement src
  | "while_statement" => do
    let test ← (← s.required src "condition").condition
    return .whileStmt test (← (← s.required src "body").statement)
  | "do_statement" => do
    let body ← (← s.required src "body").statement
    return .doWhileStmt body (← (← s.required src "condition").condition)
  | "return_statement" => do return .returnStmt (← s.named.head?.mapM Reading.expression)
  | "throw_statement" => do return .throwStmt (← s.firstExpression)
  | "break_statement" => do return .breakStmt (← (s.field? "label").mapM (·.text src))
  | "continue_statement" => do return .continueStmt (← (s.field? "label").mapM (·.text src))
  | "labeled_statement" => do
    let label ← (← s.required src "label").text src
    return .labeledStmt label (← (← s.required src "body").statement)
  | "try_statement" => s.tryStatement src
  | "switch_statement" => s.switchStatement src
  | "import_statement" => s.importStatement src
  | "export_statement" => s.exportStatement src
  | _ => do return .raw (← s.text src)
where
  function : Except Fault Node := do
    let f ← s.functionParts src
    return .functionDecl f.name f.params f.body f.isAsync f.isGenerator

/-- The reading of a node whose children have been read. -/
def read : Reading :=
  .node s.label (s.expression src) (s.statement src) (s.pattern src) s.children

end Site

namespace Concrete

mutual

/-- The reading of a tree. -/
def read (src : Source) : Concrete → Reading
  | node label children => Site.read src ⟨label, readAll src children⟩

/-- The readings of a list of trees. -/
def readAll (src : Source) : List Concrete → List Reading
  | [] => []
  | c :: cs => read src c :: readAll src cs

end

/-- The program that a concrete tree means, without a look at errors. -/
def program (src : Source) (root : Concrete) : Except Fault Node := do
  return .program (← (root.read src).site.named.mapM Reading.statement)

/-- The program that a concrete tree means, unless it marks an error. -/
def parse (src : Source) (root : Concrete) : Except Fault Node :=
  if root.hasError then .error (root.syntaxFault src) else root.program src

end Concrete

end Resugar
