import Resugar.Concrete.Function

/-!
# Concrete nodes as patterns and expressions

`Site.patternOnly?` reads the kinds that are patterns and nothing else; any
other node is as a pattern what it is as an expression. `Site.expression` reads
every kind of expression, and keeps a node of a kind it does not know as the
text it is.
-/

namespace Resugar

namespace Reading

variable (src : Source)

/-- The node as an entry of an object pattern; other kinds are passed over. -/
def patternEntry (r : Reading) : Except Fault (Option Node) :=
  match r.kind with
  | "pair_pattern" => do
    let keyNode ← r.site.required src "key"
    let key ← keyNode.key src
    let value ← (← r.site.required src "value").pattern
    return some (.entry key value .init keyNode.isComputedKey false false)
  | "shorthand_property_identifier_pattern" => do
    let name ← r.identifier src
    return some (.entry name name .init false true false)
  | "object_assignment_pattern" => do
    let name ← (← r.site.required src "left").identifier src
    let value ← (← r.site.required src "right").expression
    return some (.entry name (.defaultPattern name value) .init false true false)
  | "rest_pattern" => do
    return some (.restPattern (← (← r.site.first).pattern))
  | _ => return none

/-- The node as an entry of an object literal; other kinds are passed over. -/
def objectEntry (r : Reading) : Except Fault (Option Node) :=
  match r.kind with
  | "pair" => do
    let keyNode ← r.site.required src "key"
    let key ← keyNode.key src
    let value ← (← r.site.required src "value").expression
    return some (.entry key value .init keyNode.isComputedKey false false)
  | "shorthand_property_identifier" => do
    let name ← r.identifier src
    return some (.entry name name .init false true false)
  | "spread_element" => do
    return some (.spread (← r.site.firstExpression))
  | "method_definition" => do
    return some (← r.site.methodParts src).toEntry
  | _ => return none

/-- The node as a part of a sequence; a sequence in one gives its own parts. -/
def sequencePart (r : Reading) : Except Fault (List Node) := do
  match ← r.expression with
  | .sequence parts => return parts
  | part => return [part]

end Reading

/-- The logical operators. -/
def isLogicalOperator (operator : Text) : Bool :=
  ["&&", "||", "??"].any fun name => operator == Text.ofString name

namespace Site

variable (src : Source) (s : Site)

/-- The meaning of a node of a kind that is only a pattern. -/
def patternOnly? : Option (Except Fault Node) :=
  match s.label.kind with
  | "identifier" => some do return .identifier (← s.text src)
  | "shorthand_property_identifier_pattern" => some do return .identifier (← s.text src)
  | "undefined" => some (.ok (.identifier "undefined"))
  | "assignment_pattern" => some do
    let left ← (← s.required src "left").pattern
    let right ← (← s.required src "right").expression
    return .defaultPattern left right
  | "rest_pattern" => some do return .restPattern (← (← s.first).pattern)
  | "array_pattern" =>
    some do return .arrayPattern (← Reading.elements Reading.pattern false s.children)
  | "object_pattern" => some do
    return .objectPattern ((← s.named.mapM (·.patternEntry src)).filterMap id)
  | _ => none

/-- The pieces of a template between its substitutions, from an offset on, and
    the substitutions. -/
def templatePieces (stop : Nat) :
    (start : Nat) → List Reading → Except Fault (List Text × List Node)
  | start, [] => do return ([← src.text start stop], [])
  | start, c :: cs =>
    if c.label.isNamed && c.kind == "template_substitution" then do
      let quasi ← src.text start c.label.start
      let expression ← c.site.firstExpression
      let (quasis, expressions) ← templatePieces stop c.label.stop cs
      return (quasi :: quasis, expression :: expressions)
    else templatePieces stop start cs

/-- The node as a template. Its quotes are the first and the last byte of its
    range; if that ends at the first byte of the source, the last byte of the
    source is taken. -/
def template : Except Fault Node := do
  let stop := if s.label.stop = 0 then src.length - 1 else s.label.stop - 1
  let (quasis, expressions) ← templatePieces src stop (s.label.start + 1) s.children
  return .template quasis expressions

/-- The node as a call, or as a template with a tag. -/
def call : Except Fault Node := do
  let callee ← (← s.required src "function").expression
  let arguments ← s.required src "arguments"
  if arguments.kind == "template_string" then return .taggedTemplate callee (← arguments.expression)
  else
    let isOptional := (s.field? "optional_chain").isSome || (s.ofKind? "optional_chain").isSome
    return .call callee (← arguments.site.expressions) isOptional

/-- The node as an arrow function. -/
def arrow : Except Fault Node := do
  let params ← match s.field? "parameter" with
    | some single => do pure [← single.pattern]
    | none => do (← s.required src "parameters").params
  let bodyNode ← s.required src "body"
  let body ← if bodyNode.kind == "statement_block" then bodyNode.body else bodyNode.expression
  return .arrow params body (s.hasToken "async")

/-- The meaning of a node as an expression. -/
def expression : Except Fault Node :=
  match s.label.kind with
  | "identifier" => do return .identifier (← s.text src)
  | "property_identifier" => do return .identifier (← s.text src)
  | "shorthand_property_identifier" => do return .identifier (← s.text src)
  | "shorthand_property_identifier_pattern" => do return .identifier (← s.text src)
  | "private_property_identifier" => do return .identifier (← s.text src)
  | "statement_identifier" => do return .identifier (← s.text src)
  | "undefined" => return .identifier "undefined"
  | "import" => return .identifier "import"
  | "this" => return .thisExpr
  | "super" => return .superExpr
  | "true" => return .literal (.bool true) (Text.ofString "true")
  | "false" => return .literal (.bool false) (Text.ofString "false")
  | "null" => return .literal .null (Text.ofString "null")
  | "number" => do
    let spelling ← s.text src
    return .literal (.number (Number.read spelling)) spelling
  | "string" => do
    let spelling ← s.text src
    return .literal (.string (← StringLiteral.value spelling)) spelling
  | "template_string" => s.template src
  | "array" => do return .array (← Reading.elements Reading.expression false s.children)
  | "object" => do return .object ((← s.named.mapM (·.objectEntry src)).filterMap id)
  | "parenthesized_expression" => do return .parenthesized (← s.firstExpression)
  | "sequence_expression" => do return .sequence (← s.named.mapM Reading.sequencePart).flatten
  | "call_expression" => s.call src
  | "new_expression" => do
    let callee ← (← s.required src "constructor").expression
    let arguments ← match s.field? "arguments" with
      | some a => a.site.expressions
      | none => pure []
    return .newExpr callee arguments
  | "member_expression" => do
    let receiver ← (← s.required src "object").expression
    let property ← (← s.required src "property").identifier src
    return .member receiver property false (s.ofKind? "optional_chain").isSome
  | "subscript_expression" => do
    let receiver ← (← s.required src "object").expression
    let property ← (← s.required src "index").expression
    return .member receiver property true (s.ofKind? "optional_chain").isSome
  | "assignment_expression" => do
    let left ← (← s.required src "left").pattern
    let right ← (← s.required src "right").expression
    return .assignment "=" left right
  | "augmented_assignment_expression" => do
    let operator ← (← s.required src "operator").text src
    let left ← (← s.required src "left").expression
    let right ← (← s.required src "right").expression
    return .assignment operator left right
  | "binary_expression" => do
    let operator ← (← s.required src "operator").text src
    let left ← (← s.required src "left").expression
    let right ← (← s.required src "right").expression
    return if isLogicalOperator operator then .logical operator left right
      else .binary operator left right
  | "unary_expression" => do
    let operator ← (← s.required src "operator").text src
    let argument ← (← s.required src "argument").expression
    return .unary operator argument
  | "update_expression" => do
    let operator ← (← s.required src "operator").text src
    let argument ← (← s.required src "argument").expression
    let leading := s.children.head?.any fun c => c.kind == "++" || c.kind == "--"
    return .update operator argument leading
  | "ternary_expression" => do
    let test ← (← s.required src "condition").expression
    let consequent ← (← s.required src "consequence").expression
    let alternate ← (← s.required src "alternative").expression
    return .conditional test consequent alternate
  | "function_expression" => function
  | "function" => function
  | "generator_function" => function
  | "arrow_function" => s.arrow src
  | "class" => do
    let c ← s.classParts src
    return .classExpr c.name c.superClass c.body
  | "await_expression" => do return .awaitExpr (← s.firstExpression)
  | "yield_expression" => do
    let argument ← s.named.head?.mapM Reading.expression
    return .yieldExpr argument (s.hasToken "*")
  | "spread_element" => do return .spread (← s.firstExpression)
  | "object_pattern" => pattern
  | "array_pattern" => pattern
  | _ => raw
where
  raw : Except Fault Node := do return .raw (← s.text src)
  pattern : Except Fault Node := (s.patternOnly? src).getD raw
  function : Except Fault Node := do
    let f ← s.functionParts src
    return .functionExpr f.name f.params f.body f.isAsync f.isGenerator

/-- The meaning of a node as a pattern. -/
def pattern : Except Fault Node :=
  (s.patternOnly? src).getD (s.expression src)

end Site

end Resugar
