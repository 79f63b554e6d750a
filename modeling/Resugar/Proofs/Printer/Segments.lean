import Mathlib.Data.List.Forall2
import Resugar.Printer.Print
import Resugar.Tree.Edit

/-!
# The text of a node, piece by piece

The text of a node is put together from words and marks of its own, and the
texts of what stands below it, some of them moved to the right by one level.
`Node.segments` lists these pieces in order, each text of a node with the path
to the node. So it can be told where the text of a node stands in the text of a
whole program.

Not every node below has a place. A function that is a method gives no more than
its parameters and its body, and a declaration at the head of a loop no more
than its declarators: these have longer paths.
-/

namespace Resugar

/-- A string as the value of an attribute. -/
def Text.attributeString (t : Text) : Text :=
  concat ["\"", t.escapeAttribute, "\""]

/-- A piece of the text of a node. -/
inductive Segment where
  /-- Words and marks of its own. -/
  | mark (text : Text)
  /-- The text for a part that is no node: a piece of a template, or the string
      of an attribute. -/
  | own (path : Path) (text : Text)
  | child (path : Path) (node : Node)
  /-- The text of the node at a path below, moved to the right by one level. -/
  | nested (path : Path) (node : Node)

/-- The text of a piece. -/
def Segment.print : Segment → Printed
  | mark text => .ok text
  | own _ text => .ok text
  | child _ n => n.print
  | nested _ n => return (← n.print).indent

/-- Pieces in the order in which they stand. -/
abbrev Segments := List Segment

namespace Segments

/-- What pieces give when they are put together. -/
inductive Prints : Segments → Text → Prop where
  | nil : Prints [] []
  | cons {s : Segment} {ss : Segments} {t u : Text} :
    s.print = .ok t → Prints ss u → Prints (s :: ss) (t ++ u)

/-! ## Putting pieces together -/

def mark (t : Text) : Segments :=
  [.mark t]

def child (path : Path) (n : Node) : Segments :=
  [.child path n]

def own (path : Path) (t : Text) : Segments :=
  [.own path t]

def concat (pieces : List Segments) : Segments :=
  pieces.flatten

def join (sep : Text) (pieces : List Segments) : Segments :=
  List.intercalate (mark sep) pieces

def parens (ss : Segments) : Segments :=
  concat [mark "(", ss, mark ")"]

def parensIf (needed : Bool) (ss : Segments) : Segments :=
  if needed then parens ss else ss

def tuple (pieces : List Segments) : Segments :=
  parens (join ", " pieces)

def bracedList : List Segments → Segments
  | [] => mark "\x7b\x7d"
  | pieces => concat [mark "\x7b ", join ", " pieces, mark " \x7d"]

def brackets (pieces : List (Option Segments)) : Segments :=
  concat [mark "[", join ", " (pieces.map (·.getD [])),
    mark (if pieces.getLast?.any (·.isNone) then "," else []), mark "]"]

/-- Nodes in braces, one to a line. -/
def braces : List (Path × Node) → Segments
  | [] => mark "\x7b\x7d"
  | items =>
    concat [mark "\x7b\n", items.flatMap fun item =>
      [.nested item.1 item.2, .mark "\n"], mark "\x7d"]

variable {ss ss' : Segments} {t t' : Text} {ts : List Text}

theorem Prints.append (h : Prints ss t) (h' : Prints ss' t') : Prints (ss ++ ss') (t ++ t') := by
  induction h with
  | nil => exact h'
  | cons hs _ ih =>
    rw [List.append_assoc]
    exact .cons hs ih

/-- Pieces give one text at most. -/
theorem Prints.unique (h : Prints ss t) (h' : Prints ss t') : t = t' := by
  induction h generalizing t' with
  | nil =>
    cases h'
    rfl
  | cons hs _ ih =>
    obtain _ | ⟨hs', hrest⟩ := h'
    rw [Except.ok.inj (hs.symm.trans hs'), ih hrest]

/-- The pieces before a piece, it and those after it give three texts. -/
theorem Prints.split {s : Segment} (h : Prints (ss ++ s :: ss') t) :
    ∃ before u after, Prints ss before ∧ s.print = .ok u ∧ Prints ss' after ∧
      t = before ++ u ++ after := by
  induction ss generalizing t with
  | nil =>
    obtain _ | ⟨hs, hrest⟩ := h
    exact ⟨[], _, _, .nil, hs, hrest, rfl⟩
  | cons s' ss ih =>
    obtain _ | ⟨hs', hrest⟩ := h
    obtain ⟨before, u, after, hbefore, hu, hafter, rfl⟩ := ih hrest
    exact ⟨_, u, after, .cons hs' hbefore, hu, hafter, by simp⟩

@[simp] theorem prints_mark (t : Text) : Prints (mark t) t := by
  have h : Prints (mark t) (t ++ []) := .cons rfl .nil
  rwa [List.append_nil] at h

theorem prints_child {path : Path} {n : Node} (h : n.print = .ok t) : Prints (child path n) t := by
  have h : Prints (child path n) (t ++ []) := .cons h .nil
  rwa [List.append_nil] at h

theorem prints_own {path : Path} (t : Text) : Prints (own path t) t := by
  have h : Prints (own path t) (t ++ []) := .cons rfl .nil
  rwa [List.append_nil] at h

theorem Prints.pair (h : Prints ss t) (h' : Prints ss' t') :
    Prints (Segments.concat [ss, ss']) (t ++ t') := by
  rw [Segments.concat, List.flatten_cons, List.flatten_singleton]
  exact h.append h'

theorem Prints.concat {pieces : List Segments} (h : List.Forall₂ Prints pieces ts) :
    Prints (Segments.concat pieces) (Text.concat ts) := by
  induction h with
  | nil => exact .nil
  | cons hp _ ih => exact hp.append ih

/-- A separator between pieces stands between their texts. -/
theorem Prints.join (sep : Text) {pieces : List Segments} (h : List.Forall₂ Prints pieces ts) :
    Prints (Segments.join sep pieces) (Text.join sep ts) := by
  refine Prints.concat ?_
  induction h with
  | nil => exact .nil
  | cons hp hrest ih =>
    cases hrest with
    | nil => exact .cons hp .nil
    | cons hq hrest => exact .cons hp (.cons (prints_mark sep) ih)

theorem Prints.parens (h : Prints ss t) : Prints (Segments.parens ss) t.parens :=
  .concat (.cons (prints_mark _) (.cons h (.cons (prints_mark _) .nil)))

/-- Parentheses around pieces stand around their text. -/
theorem Prints.parensIf (needed : Bool) (h : Prints ss t) :
    Prints (Segments.parensIf needed ss) (t.parensIf needed) := by
  cases needed with
  | false => exact h
  | true => exact h.parens

theorem Prints.tuple {pieces : List Segments} (h : List.Forall₂ Prints pieces ts) :
    Prints (Segments.tuple pieces) (Text.tuple ts) :=
  (Prints.join _ h).parens

theorem Prints.bracedList {pieces : List Segments} (h : List.Forall₂ Prints pieces ts) :
    Prints (Segments.bracedList pieces) (Text.bracedList ts) := by
  cases h with
  | nil => exact prints_mark _
  | cons hp hrest =>
    exact .concat (.cons (prints_mark _)
      (.cons (.join _ (.cons hp hrest)) (.cons (prints_mark _) .nil)))

/-- A list of pieces ends in a hole if the list of texts does. -/
theorem getLast?_isNone {pieces : List (Option Segments)} {ts : List (Option Text)}
    (h : List.Forall₂ (Option.Rel Prints) pieces ts) :
    pieces.getLast?.any (·.isNone) = decide (ts.getLast? = some none) := by
  induction h with
  | nil => rfl
  | cons hp hrest ih =>
    cases hrest with
    | nil => cases hp <;> rfl
    | cons hq hrest => simpa [List.getLast?_cons_cons] using ih

theorem forall₂_getD {pieces : List (Option Segments)} {ts : List (Option Text)}
    (h : List.Forall₂ (Option.Rel Prints) pieces ts) :
    List.Forall₂ Prints (pieces.map (·.getD [])) (ts.map (·.getD [])) := by
  induction h with
  | nil => exact .nil
  | cons hp _ ih =>
    refine .cons ?_ ih
    cases hp with
    | none => exact .nil
    | some hp => exact hp

/-- Pieces in brackets give the text in brackets, holes and all. -/
theorem Prints.brackets {pieces : List (Option Segments)} {ts : List (Option Text)}
    (h : List.Forall₂ (Option.Rel Prints) pieces ts) :
    Prints (Segments.brackets pieces) (Text.brackets ts) := by
  refine .concat (.cons (prints_mark _)
    (.cons (.join _ (forall₂_getD h)) (.cons ?_ (.cons (prints_mark _) .nil))))
  rw [getLast?_isNone h]
  simp

/-- Nodes in braces give the text in braces, one to a line. -/
theorem Prints.braces {items : List (Path × Node)}
    (h : List.Forall₂ (fun item t => item.2.print = .ok t) items ts) :
    Prints (Segments.braces items) (Text.braces ts) := by
  have hlines : Prints (items.flatMap fun item => [.nested item.1 item.2, .mark "\n"])
      (ts.flatMap fun t => t.indent ++ "\n") := by
    induction h with
    | nil => exact .nil
    | cons hp _ ih =>
      rw [List.flatMap_cons, List.flatMap_cons, List.append_assoc]
      exact .cons (bind_eq_ok.2 ⟨_, hp, rfl⟩) (.cons rfl ih)
  cases h with
  | nil => exact prints_mark _
  | cons hp hrest =>
    exact .concat (.cons (prints_mark _) (.cons hlines (.cons (prints_mark _) .nil)))

end Segments

/-! ## The pieces of a node -/

namespace Node

open Segments

/-- The text of a node, if it can be printed. -/
def text (n : Node) : Text :=
  n.print.toOption.getD []

/-- Whether an expression binds less tightly than a given precedence. -/
def bindsBelow (n : Node) (outer : Nat) : Bool :=
  n.precedence.toOption.any (· < outer)

/-- The nodes of a list, each with the path to it. -/
def steps (base : Path) (name : String) (ns : List Node) : List (Path × Node) :=
  ns.zipIdx.map fun p => (base ++ [.field name, .index p.2], p.1)

/-- The nodes of a list with holes, each with the path to it. -/
def holeSteps (name : String) (ns : List (Option Node)) : List (Option (Path × Node)) :=
  ns.zipIdx.map fun p => p.1.map fun n => ([.field name, .index p.2], n)

/-- An operand, in parentheses if need be. -/
def operandSegments (path : Path) (n : Node) (outer : Nat) (side : Side) (operator : Option Text) :
    Segments :=
  parensIf (n.precedence.toOption.any fun own =>
    n.needsParens own outer side operator) (child path n)

/-- An operand of a logical operator. -/
def logicalSegments (path : Path) (n : Node) (operator : Text) (outer : Nat) (side : Side) :
    Segments :=
  if n.mixesNullish operator then parens (child path n)
  else operandSegments path n outer side operator

/-- An expression where only a primary expression or a call can stand. -/
def primarySegments (path : Path) (n : Node) : Segments :=
  parensIf (n.bindsBelow 19) (child path n)

/-- An expression between commas. -/
def itemSegments (path : Path) (n : Node) : Segments :=
  parensIf (n.bindsBelow 2) (child path n)

/-- A key, in brackets if it is computed. -/
def keySegments (key : Node) (computed : Bool) : Segments :=
  if computed then concat [mark "[", itemSegments [.field "key"] key, mark "]"]
  else child [.field "key"] key

/-- The nodes of a list, each on its own. -/
def listSegments (base : Path) (name : String) (ns : List Node) : List Segments :=
  (steps base name ns).map fun s => child s.1 s.2

/-- The expressions of a list, between commas. -/
def itemsSegments (name : String) (ns : List Node) : List Segments :=
  (steps [] name ns).map fun s => itemSegments s.1 s.2

/-- A node that may be missing, between texts of its own. -/
def optionSegments (before : Text) (name : String) (n : Option Node) (after : Text) : Segments :=
  n.elim [] fun n => concat [mark before, child [.field name] n, mark after]

/-- The pieces of a template and the expressions, from a position on. -/
def templateSegments : (index : Nat) → List Text → List Node → Segments
  | _, [], _ => []
  | i, q :: quasis, [] =>
    .own [.field "quasis", .index i] q.foldLines :: templateSegments (i + 1) quasis []
  | i, q :: quasis, e :: es =>
    .own [.field "quasis", .index i] q.foldLines :: .mark "$\x7b" ::
      .child [.field "expressions", .index i] e :: .mark "\x7d" ::
      templateSegments (i + 1) quasis es

def functionSegments (name : Option Node) (params : List Node) (body : Node)
    (isAsync isGenerator : Bool) : Segments :=
  concat [mark (if isAsync then "async " else []),
    mark (if isGenerator then "function*" else "function"), optionSegments " " "id" name [],
    tuple (listSegments [] "params" params), mark " ", child [.field "body"] body]

def methodSegments (key : Node) (computed : Bool) (params : List Node) (body : Node)
    (isStatic isAsync isGenerator : Bool) (accessor : Text) : Segments :=
  concat [mark (if isStatic then "static " else []), mark (if isAsync then "async " else []),
    mark accessor, mark (if isGenerator then "*" else []), keySegments key computed,
    tuple (listSegments [.field "value"] "params" params), mark " ",
    child [.field "value", .field "body"] body]

def classSegments (name superClass : Option Node) (body : Node) : Segments :=
  concat [mark "class ", optionSegments [] "id" name " ",
    superClass.elim [] fun n => concat [mark "extends ", primarySegments [.field "superClass"] n,
      mark " "], child [.field "body"] body]

/-- A declaration without the semicolon. -/
def variablesSegments (base : Path) (kind : VariableKind) (declarators : List Node) : Segments :=
  concat [mark kind.keyword, mark " ", join ", " (listSegments base "declarations" declarators)]

/-- What a loop begins with: a declaration, or an expression. -/
def headSegments (name : String) : Node → Segments
  | varDecl kind declarators => variablesSegments [.field name] kind declarators
  | n => child [.field name] n

/-- The receiver of a member access. -/
def receiverSegments (receiver : Node) (computed : Bool) : Segments :=
  if receiver.isNumber && !computed then
    parensIf (!receiver.text.isEmpty && receiver.text.all CodePoint.isDecimal)
      (child [.field "object"] receiver)
  else if receiver.isFunctionOrClass || receiver.isObject
    then parens (child [.field "object"] receiver)
  else operandSegments [.field "object"] receiver 19 .left none

/-- The blank between a unary operator and the text of its operand. -/
def unaryBlank (operator argument : Text) : Text :=
  let sign := operator == "+" || operator == "-"
  if operator.getLast?.any CodePoint.isLetter ||
    (sign && argument.startsWith operator) then " " else []

/-- Whether an import names its binding just as what is imported. -/
def importsSame (imported binding : Node) : Bool :=
  match imported with
  | identifier name => binding.name? == some name
  | _ => false

/-- The pieces of the text of a node. -/
@[simp] def segments : Node → Segments
  | template quasis expressions =>
    concat [mark "\x60", templateSegments 0 quasis expressions, mark "\x60"]
  | taggedTemplate tag quasi =>
    concat [primarySegments [.field "tag"] tag, child [.field "quasi"] quasi]
  | array elements =>
    brackets ((holeSteps "elements" elements).map (Option.map fun s => itemSegments s.1 s.2))
  | object entries => bracedList (listSegments [] "properties" entries)
  | entry key value kind computed shorthand isMethod =>
    if shorthand && !computed && value.isShorthandFor key then child [.field "value"] value
    else match value with
      | functionExpr id params body isAsync isGenerator =>
        if kind ≠ .init || isMethod then
          methodSegments key computed params body false isAsync isGenerator kind.accessor
        else concat [keySegments key computed, mark ": ",
          child [.field "value"] (functionExpr id params body isAsync isGenerator)]
      | other => concat [keySegments key computed, mark ": ", itemSegments [.field "value"] other]
  | spread argument => concat [mark "...", itemSegments [.field "argument"] argument]
  | unary operator argument =>
    concat [mark operator, mark (unaryBlank operator
      ((argument.operand argument.print 17 .right none).toOption.getD [])),
      operandSegments [.field "argument"] argument 17 .right none]
  | update operator argument leading =>
    let operand := operandSegments [.field "argument"] argument 18 .right none
    if leading then concat [mark operator, operand] else concat [operand, mark operator]
  | binary operator left right =>
    let own := (operatorPrecedence? operator).getD 0
    concat [if operator == "**" && left.isUnary
        then parens (child [.field "left"] left)
        else operandSegments [.field "left"] left own .left operator,
      mark " ", mark operator, mark " ", operandSegments [.field "right"] right own .right operator]
  | logical operator left right =>
    let own := (operatorPrecedence? operator).getD 0
    concat [logicalSegments [.field "left"] left operator own .left, mark " ", mark operator,
      mark " ", logicalSegments [.field "right"] right operator own .right]
  | assignment operator left right =>
    concat [parensIf left.isObjectPattern (child [.field "left"] left), mark " ", mark operator,
      mark " ", operandSegments [.field "right"] right 3 .right operator]
  | conditional test consequent alternate =>
    concat [operandSegments [.field "test"] test 5 .left none, mark " ? ",
      operandSegments [.field "consequent"] consequent 3 .right none, mark " : ",
      operandSegments [.field "alternate"] alternate 3 .right none]
  | call callee arguments isOptional =>
    concat [if callee.isFunctionOrClass then parens (child [.field "callee"] callee)
        else operandSegments [.field "callee"] callee 19 .left none,
      mark (if isOptional then "?." else []), tuple (itemsSegments "arguments" arguments)]
  | newExpr callee arguments =>
    concat [mark "new ", parensIf (callee.bindsBelow 19 || callee.containsCall)
      (child [.field "callee"] callee), tuple (itemsSegments "arguments" arguments)]
  | member receiver property computed isOptional =>
    if computed then
      concat [receiverSegments receiver computed, mark (if isOptional then "?.[" else "["),
        child [.field "property"] property, mark "]"]
    else
      concat [receiverSegments receiver computed, mark (if isOptional then "?." else "."),
        child [.field "property"] property]
  | sequence expressions => join ", " (itemsSegments "expressions" expressions)
  | parenthesized expression => parens (child [.field "expression"] expression)
  | awaitExpr argument =>
    concat [mark "await ", operandSegments [.field "argument"] argument 17 .right none]
  | yieldExpr argument delegate =>
    concat [mark (if delegate then "yield*" else "yield"),
      argument.elim [] fun n => concat
      [mark " ", operandSegments [.field "argument"] n 2 .right none]]
  | functionExpr name params body isAsync isGenerator =>
    functionSegments name params body isAsync isGenerator
  | arrow params body isAsync =>
    concat [mark (if isAsync then "async " else []),
      if params.length = 1 && params.all isIdentifier then concat (listSegments [] "params" params)
        else tuple (listSegments [] "params" params),
      mark " => ",
      if body.isBlock then child [.field "body"] body
        else if body.isObject || body.isSequence then parens (child [.field "body"] body)
        else operandSegments [.field "body"] body 3 .right none]
  | classExpr name superClass body => classSegments name superClass body
  | objectPattern entries => bracedList (listSegments [] "properties" entries)
  | arrayPattern elements =>
    brackets ((holeSteps "elements" elements).map (Option.map fun s => child s.1 s.2))
  | defaultPattern left right =>
    concat [child [.field "left"] left, mark " = ", itemSegments [.field "right"] right]
  | restPattern argument => concat [mark "...", child [.field "argument"] argument]
  | element name attributes children selfClosing =>
    let attributes :=
      (steps [] "attributes" attributes).flatMap fun s => [.mark " ", .child s.1 s.2]
    if selfClosing then concat [mark "<", mark name, attributes, mark " />"]
    else concat [mark "<", mark name, attributes, mark ">",
      concat (listSegments [] "children" children), mark "</", mark name, mark ">"]
  | namedAttribute name (some value) =>
    match value with
    | literal (.string text) _ =>
      concat [mark name, mark "=", own [.field "value"] text.attributeString]
    | container expression =>
      concat [mark name, mark "=", child [.field "value"] (container expression)]
    | other => concat [mark name, mark "=\x7b", itemSegments [.field "value"] other, mark "\x7d"]
  | spreadAttribute argument =>
    concat [mark "\x7b...", itemSegments [.field "argument"] argument, mark "\x7d"]
  | container expression =>
    concat [mark "\x7b", itemSegments [.field "expression"] expression, mark "\x7d"]
  | program body => join "\n" (listSegments [] "body" body)
  | exprStmt expression =>
    concat [parensIf expression.text.looksLikeStatement
      (child [.field "expression"] expression), mark ";"]
  | block body => braces (steps [] "body" body)
  | returnStmt argument =>
    concat [mark "return", optionSegments " " "argument" argument [], mark ";"]
  | throwStmt argument => concat [mark "throw ", child [.field "argument"] argument, mark ";"]
  | ifStmt test consequent alternate =>
    concat [mark "if (", child [.field "test"] test, mark ") ",
      if alternate.isSome && consequent.takesElse then braces [([.field "consequent"], consequent)]
        else child [.field "consequent"] consequent,
      optionSegments " else " "alternate" alternate []]
  | forStmt init test step body =>
    concat [mark "for (", init.elim [] (headSegments "init"), mark ";",
      optionSegments " " "test" test [], mark ";", optionSegments " " "update" step [], mark ") ",
      child [.field "body"] body]
  | forInStmt left right body isOf isAwait =>
    concat [mark (if isAwait then "for await (" else "for ("), headSegments "left" left,
      mark (if isOf then " of " else " in "), child [.field "right"] right, mark ") ",
      child [.field "body"] body]
  | whileStmt test body =>
    concat [mark "while (", child [.field "test"] test, mark ") ", child [.field "body"] body]
  | doWhileStmt body test =>
    concat [mark "do ", child [.field "body"] body, mark " while (",
      child [.field "test"] test, mark ");"]
  | labeledStmt label body => concat [mark label, mark ": ", child [.field "body"] body]
  | catchClause param body =>
    concat [mark "catch ", optionSegments "(" "param" param ") ", child [.field "body"] body]
  | tryStmt body handler finalizer =>
    concat [mark "try ", child [.field "block"] body, optionSegments " " "handler" handler [],
      optionSegments " finally " "finalizer" finalizer []]
  | switchCase test consequent =>
    concat [test.elim (mark "default:") fun n =>
      concat [mark "case ", child [.field "test"] n, mark ":"],
      (steps [] "consequent" consequent).flatMap fun s => [.mark "\n", .nested s.1 s.2]]
  | switchStmt discriminant cases =>
    concat [mark "switch (", child [.field "discriminant"] discriminant, mark ") ",
      braces (steps [] "cases" cases)]
  | declarator target init =>
    concat [child [.field "id"] target,
      init.elim [] fun n => concat [mark " = ", itemSegments [.field "init"] n]]
  | varDecl kind declarators => concat [variablesSegments [] kind declarators, mark ";"]
  | functionDecl name params body isAsync isGenerator =>
    functionSegments name params body isAsync isGenerator
  | method key value kind isStatic computed =>
    match value with
    | functionExpr _ params body isAsync isGenerator =>
      methodSegments key computed params body isStatic isAsync isGenerator kind.accessor
    | functionDecl _ params body isAsync isGenerator =>
      methodSegments key computed params body isStatic isAsync isGenerator kind.accessor
    | _ => []
  | classField key value isStatic computed =>
    concat [mark (if isStatic then "static " else []), keySegments key computed,
      value.elim [] fun n => concat [mark " = ", itemSegments [.field "value"] n], mark ";"]
  | classBody body => braces (steps [] "body" body)
  | classDecl name superClass body => classSegments name superClass body
  | importDefault binding => child [.field "local"] binding
  | importNamespace binding => concat [mark "* as ", child [.field "local"] binding]
  | importName imported binding =>
    if importsSame imported binding then child [.field "imported"] imported
    else concat [child [.field "imported"] imported, mark " as ", child [.field "local"] binding]
  | importDecl specifiers source =>
    let all := steps [] "specifiers" specifiers
    let leading := (all.filter (!·.2.isImportName)).map fun s => child s.1 s.2
    let named := (all.filter (·.2.isImportName)).map fun s => child s.1 s.2
    let parts := leading ++ if named.isEmpty then [] else [bracedList named]
    concat [mark "import ", if parts.isEmpty then [] else concat [join ", " parts, mark " from "],
      child [.field "source"] source, mark ";"]
  | exportName binding exported =>
    if binding.text = exported.text then child [.field "local"] binding
    else concat [child [.field "local"] binding, mark " as ", child [.field "exported"] exported]
  | exportNamed declaration specifiers source =>
    match declaration with
    | some n => concat [mark "export ", child [.field "declaration"] n]
    | none =>
      concat [mark "export ", bracedList (listSegments [] "specifiers" specifiers),
        optionSegments " from " "source" source [], mark ";"]
  | exportDefault declaration =>
    if declaration.isDeclaration
      then concat [mark "export default ", child [.field "declaration"] declaration]
    else concat [mark "export default ", itemSegments [.field "declaration"] declaration, mark ";"]
  | exportAll source exported =>
    concat [mark "export * ", optionSegments "as " "exported" exported " ", mark "from ",
      child [.field "source"] source, mark ";"]
  -- the other kinds have no nodes below them
  | n => mark n.text

end Node

end Resugar
