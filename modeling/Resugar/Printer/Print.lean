import Resugar.Printer.Precedence
import Resugar.Text.Escape
import Resugar.Tree.Part

/-!
# Printing

`Node.print` writes a tree as source text. Statements in braces stand one to a
line, moved to the right by one level; everything else stays on its line.
Parentheses are written where the tree needs them
(`Resugar.Printer.Precedence`), and around an expression statement that would be
taken for something else.
-/

namespace Resugar

open Text

/-- The text of a node, or what keeps it from being printed. -/
abbrev Printed := Except Fault Text

namespace Text

/-- A text in parentheses. -/
def parens (t : Text) : Text :=
  concat ["(", t, ")"]

/-- A text in parentheses if need be. -/
def parensIf (needed : Bool) (t : Text) : Text :=
  if needed then parens t else t

/-- Texts in parentheses, with commas between them. -/
def tuple (ts : List Text) : Text :=
  parens (join ", " ts)

/-- Texts in braces, one to a line. -/
def braces : List Text → Text
  | [] => "\x7b\x7d"
  | ts => concat ["\x7b\n", ts.flatMap fun t => indent t ++ ofString "\n", "\x7d"]

/-- Texts in braces on one line, with commas between them. -/
def bracedList : List Text → Text
  | [] => "\x7b\x7d"
  | ts => concat ["\x7b ", join ", " ts, " \x7d"]

/-- Texts in brackets with commas between them; an empty text at the end takes
    one more comma. -/
def brackets (ts : List (Option Text)) : Text :=
  concat ["[", join ", " (ts.map (·.getD [])), if ts.getLast? = some none then "," else [], "]"]

/-- A piece of a template, on one line: line feeds are escapes, with the
    carriage returns before them. -/
def foldLines : Text → Text
  | [] => []
  | c :: t =>
    if c.val = 10 then ofString "\\n" ++ foldLines t
    else if c.val = 13 ∧ t.head?.any (·.val = 10) then foldLines t
    else c :: foldLines t

/-- The pieces of a template with the expressions between them. -/
def interleave : List Text → List Text → Text
  | [], _ => []
  | quasi :: quasis, [] => foldLines quasi ++ interleave quasis []
  | quasi :: quasis, e :: es => concat [foldLines quasi, "$\x7b", e, "\x7d", interleave quasis es]

/-- Whether a word ends where a text goes on. -/
def endsWord : Text → Bool
  | [] => true
  | c :: _ => !c.isWord

/-- Whether a text goes on with a keyword. -/
def startsWithWord (word : String) (t : Text) : Bool :=
  (t.dropStart? word).any endsWord

/-- Whether an expression with this text, as a statement, would be taken for a
    block or a declaration. -/
def looksLikeStatement (t : Text) : Bool :=
  t.startsWith "\x7b"
    || t.startsWithWord "function"
    || t.startsWithWord "class"
    || ((t.dropStart? "async").any fun rest =>
      rest.head?.any CodePoint.isSpace &&
        startsWithWord "function" (rest.dropWhile CodePoint.isSpace))
    || ((t.dropStart? "let").any fun rest => startsWith (rest.dropWhile CodePoint.isSpace) "[")

end Text

/-- The text of a number. An integral double is written as the integer it is. -/
def Number.print : Number → Printed
  | .integer n =>
    if Number.maxDigits < (Nat.toDigits 10 n.natAbs).length
      then .error .numeralTooLong else .ok (ofInt n)
  | .double x =>
    match x.toInt? with
    | some n => .ok (ofInt n)
    | none => .ok x.toText

/-- The text of a literal's value. -/
def Value.print : Value → Printed
  | .null => .ok "null"
  | .bool true => .ok "true"
  | .bool false => .ok "false"
  | .number n => n.print
  | .string t => .ok (concat ["\"", t.escapeString, "\""])

/-- The keyword before the key of an accessor. -/
def EntryKind.accessor : EntryKind → Text
  | .get => "get "
  | .set => "set "
  | _ => []

/-- The keyword before the key of an accessor. -/
def MethodKind.accessor : MethodKind → Text
  | .get => "get "
  | .set => "set "
  | _ => []

/-- A jump, with its label if that is not empty. -/
def printJump (keyword : Text) (label : Option Text) : Text :=
  match label with
  | some (c :: l) => concat [keyword, " ", c :: l, ";"]
  | _ => keyword ++ ofString ";"

namespace Node

/-- The texts of a list, if all can be printed. -/
def printAll (ts : List Printed) : Except Fault (List Text) :=
  ts.mapM fun t => t

/-- An operand, in parentheses if need be. -/
def operand (n : Node) (t : Printed) (outer : Nat) (side : Side)
    (operator : Option Text) : Printed := do
  let own ← n.precedence
  return parensIf (n.needsParens own outer side operator) (← t)

/-- Whether a logical operand mixes `??` with another logical operator. -/
def mixesNullish (operator : Text) : Node → Bool
  | logical inner _ _ => (operator == ofString "??") != (inner == ofString "??")
  | _ => false

/-- An operand of a logical operator. -/
def logicalOperand (n : Node) (t : Printed) (operator : Text) (outer : Nat) (side : Side) :
    Printed :=
  if n.mixesNullish operator then do return parens (← t) else operand n t outer side operator

/-- An expression where only a primary expression or a call can stand. -/
def primary (n : Node) (t : Printed) : Printed := do
  let own ← n.precedence
  return parensIf (own < 19) (← t)

/-- An expression between commas. -/
def listItem (n : Node) (t : Printed) : Printed := do
  let own ← n.precedence
  return parensIf (own < 2) (← t)

/-- A key, in brackets if it is computed. -/
def printKey (key : Node) (t : Printed) (computed : Bool) : Printed :=
  if computed then do return concat ["[", ← key.listItem t, "]"] else t

def isIdentifier : Node → Bool
  | identifier .. => true
  | _ => false

def isObject : Node → Bool
  | object .. => true
  | _ => false

def isObjectPattern : Node → Bool
  | objectPattern .. => true
  | _ => false

def isUnary : Node → Bool
  | unary .. => true
  | _ => false

def isSequence : Node → Bool
  | sequence .. => true
  | _ => false

def isBlock : Node → Bool
  | block .. => true
  | _ => false

def isFunctionOrClass : Node → Bool
  | functionExpr .. => true
  | classExpr .. => true
  | _ => false

/-- The declarations that an export takes without a semicolon. -/
def isDeclaration : Node → Bool
  | functionDecl .. => true
  | classDecl .. => true
  | _ => false

/-- Whether a value can stand for an entry: the name that is the key, with a
    default or not. -/
def isShorthandFor (value key : Node) : Bool :=
  match key, value with
  | identifier k, identifier v => v == k
  | identifier k, defaultPattern (identifier v) _ => v == k
  | _, _ => false

/-- Whether this is an `if` that the next `else` would belong to. -/
def takesElse : Node → Bool
  | ifStmt _ _ none => true
  | _ => false

def isImportName : Node → Bool
  | importName .. => true
  | _ => false

/-- An expression statement. -/
def printStatement (t : Text) : Text :=
  parensIf t.looksLikeStatement t ++ ofString ";"

/-- A function from its parts. -/
def printFunction (name : Option Printed) (params : List Printed) (body : Printed)
    (isAsync isGenerator : Bool) : Printed := do
  let name ← name.mapM fun t => do return concat [" ", ← t]
  return concat [if isAsync then "async " else [],
    if isGenerator then "function*" else "function", name.getD [],
    tuple (← printAll params), " ", ← body]

/-- A method from its parts. -/
def printMethod (key : Printed) (params : List Printed) (body : Printed)
    (isStatic isAsync isGenerator : Bool) (accessor : Text) : Printed := do
  return concat [if isStatic then "static " else [], if isAsync then "async " else [],
    accessor, if isGenerator then "*" else [], ← key, tuple (← printAll params), " ", ← body]

/-- A class from its parts. -/
def printClass (name superClass : Option Printed) (body : Printed) : Printed := do
  let name ← name.mapM fun t => do return concat [← t, " "]
  let heritage ← superClass.mapM fun t => do return concat ["extends ", ← t, " "]
  return concat ["class ", name.getD [], heritage.getD [], ← body]

/-- A declaration without the semicolon, from its declarators. -/
def printVariables (kind : VariableKind) (declarators : List Printed) : Printed := do
  return concat [kind.keyword, " ", join ", " (← printAll declarators)]

/-- An import from its specifiers and its source. The named ones are listed
    last, in braces. -/
def printImport (specifiers : List (Node × Printed)) (source : Printed) : Printed := do
  let leading ← printAll ((specifiers.filter (!·.1.isImportName)).map (·.2))
  let named ← printAll ((specifiers.filter (·.1.isImportName)).map (·.2))
  let parts := leading ++ if named.isEmpty then [] else [bracedList named]
  return concat ["import ", if parts.isEmpty then [] else join ", " parts ++
    ofString " from ", ← source, ";"]

/-- A markup element from its parts. -/
def printElement (name : Text) (attributes children : List Printed)
    (selfClosing : Bool) : Printed := do
  let attributes := (← printAll attributes).flatMap fun t => CodePoint.ofChar ' ' :: t
  if selfClosing then return concat ["<", name, attributes, " />"]
  else return concat ["<", name, attributes, ">",
    (← printAll children).flatten, "</", name, ">"]

/-- The receiver of a member access. A number needs parentheses unless its text
    shows a point or a sign. -/
def printReceiver (receiver : Node) (t : Printed) (computed : Bool) : Printed :=
  if receiver.isNumber && !computed then do
    let digits ← t
    return parensIf (!digits.isEmpty && digits.all CodePoint.isDecimal) digits
  else if receiver.isFunctionOrClass || receiver.isObject then do return parens (← t)
  else receiver.operand t 19 .left none

/-- A unary operator before its operand. A word, or a sign before the same sign,
    needs a blank after it. -/
def printUnary (operator argument : Text) : Printed :=
  match operator.getLast? with
  | none => .error .emptyOperator
  | some last =>
    let sign := operator == ofString "+" || operator == ofString "-"
    let blank := last.isLetter || (sign && argument.startsWith operator)
    .ok (concat [operator, if blank then " " else [], argument])

/-! ## The printer -/

mutual

/-- The text of a node. -/
def print : Node → Printed
  | raw text => .ok text
  | identifier name => .ok name
  | literal _ (some spelling) => .ok spelling
  | literal value none => value.print
  | thisExpr => .ok "this"
  | superExpr => .ok "super"
  | template quasis expressions => do
    -- expressions beyond the last piece of text have no place
    let ts ← printAll ((printList expressions).take quasis.length |>.map (·.2))
    return concat ["\x60", interleave quasis ts, "\x60"]
  | taggedTemplate tag quasi => do return concat [← tag.primary (print tag), ← print quasi]
  | array elements => do
    return brackets (← (printHoles elements).mapM fun e => e.mapM fun (n, t) => n.listItem t)
  | object entries => do return bracedList (← printAll ((printList entries).map (·.2)))
  | entry key value kind computed shorthand isMethod =>
    if shorthand && !computed && value.isShorthandFor key then print value
    else match value with
      | functionExpr name params body isAsync isGenerator =>
        if kind ≠ .init || isMethod then
          printMethod (key.printKey (print key) computed) ((printList params).map (·.2))
            (print body) false isAsync isGenerator kind.accessor
        else do
          return concat [← key.printKey (print key) computed,
            ": ", ← printFunction ((printOption name).map (·.2)) ((printList params).map (·.2))
              (print body) isAsync isGenerator]
      | other => do
        return concat [← key.printKey (print key) computed,
          ": ", ← other.listItem (print other)]
  | spread argument => do return concat ["...", ← argument.listItem (print argument)]
  | unary operator argument => do
    printUnary operator (← argument.operand (print argument) 17 .right none)
  | update operator argument leading => do
    let t ← argument.operand (print argument) 18 .right none
    return if leading then operator ++ t else t ++ operator
  | binary operator left right => do
    let own := (operatorPrecedence? operator).getD 0
    let l ←
      if operator == ofString "**" && left.isUnary then do pure (parens (← print left))
      else left.operand (print left) own .left operator
    return concat [l, " ", operator, " ", ← right.operand (print right) own .right operator]
  | logical operator left right => do
    let own ← (logical operator left right).precedence
    let l ← left.logicalOperand (print left) operator own .left
    return concat [l, " ", operator,
      " ", ← right.logicalOperand (print right) operator own .right]
  | assignment operator left right => do
    let l := parensIf left.isObjectPattern (← print left)
    return concat [l, " ", operator, " ", ← right.operand (print right) 3 .right operator]
  | conditional test consequent alternate => do
    return concat [← test.operand (print test) 5 .left none,
      " ? ", ← consequent.operand (print consequent) 3 .right none,
      " : ", ← alternate.operand (print alternate) 3 .right none]
  | call callee arguments isOptional => do
    let c ←
      if callee.isFunctionOrClass then do pure (parens (← print callee))
      else callee.operand (print callee) 19 .left none
    let args ← (printList arguments).mapM fun (n, t) => n.listItem t
    return concat [c, if isOptional then "?." else [], tuple args]
  | newExpr callee arguments => do
    let own ← callee.precedence
    let c := parensIf (own < 19 || callee.containsCall) (← print callee)
    let args ← (printList arguments).mapM fun (n, t) => n.listItem t
    return concat ["new ", c, tuple args]
  | member receiver property computed isOptional => do
    let r ← receiver.printReceiver (print receiver) computed
    let p ← print property
    return if computed then concat [r, if isOptional then "?.[" else "[", p, "]"]
      else concat [r, if isOptional then "?." else ".", p]
  | sequence expressions => do
    return join ", " (← (printList expressions).mapM fun (n, t) => n.listItem t)
  | parenthesized expression => do return parens (← print expression)
  | awaitExpr argument => do
    return concat ["await ", ← argument.operand (print argument) 17 .right none]
  | yieldExpr argument delegate => do
    let t ← (printOption argument).mapM fun (n, t) => do
      return concat [" ", ← n.operand t 2 .right none]
    return concat [if delegate then "yield*" else "yield", t.getD []]
  | functionExpr name params body isAsync isGenerator =>
    printFunction ((printOption name).map (·.2)) ((printList params).map (·.2))
      (print body) isAsync isGenerator
  | arrow params body isAsync => do
    let ps ← printAll ((printList params).map (·.2))
    let b ←
      if body.isBlock then print body
      else if body.isObject || body.isSequence then do pure (parens (← print body))
      else body.operand (print body) 3 .right none
    return concat [if isAsync then "async " else [],
      if params.length = 1 && params.all isIdentifier then ps.flatten else tuple ps, " => ", b]
  | classExpr name superClass body =>
    printClass ((printOption name).map (·.2))
      ((printOption superClass).map fun (n, t) => n.primary t) (print body)
  | objectPattern entries => do return bracedList (← printAll ((printList entries).map (·.2)))
  | arrayPattern elements => do
    return brackets (← (printHoles elements).mapM fun e => e.mapM fun (_, t) => t)
  | defaultPattern left right => do
    return concat [← print left, " = ", ← right.listItem (print right)]
  | restPattern argument => do return concat ["...", ← print argument]
  | element name attributes children selfClosing =>
    printElement name ((printList attributes).map (·.2))
      ((printList children).map (·.2)) selfClosing
  | namedAttribute name none => .ok name
  | namedAttribute name (some value) =>
    match value with
    | literal (.string text) _ => .ok (concat [name, "=\"", text.escapeAttribute, "\""])
    | container expression => do
      return concat [name, "=\x7b", ← expression.listItem (print expression), "\x7d"]
    | other => do return concat [name, "=\x7b", ← other.listItem (print other), "\x7d"]
  | spreadAttribute argument => do
    return concat ["\x7b...", ← argument.listItem (print argument), "\x7d"]
  | container expression => do
    return concat ["\x7b", ← expression.listItem (print expression), "\x7d"]
  | markupText value => .ok value.escapeMarkup
  | program body => do return unlines (← printAll ((printList body).map (·.2)))
  | exprStmt expression => do return printStatement (← print expression)
  | block body => do return braces (← printAll ((printList body).map (·.2)))
  | emptyStmt => .ok ";"
  | debuggerStmt => .ok "debugger;"
  | returnStmt argument => do
    let t ← (printOption argument).mapM fun (_, t) => do return concat [" ", ← t]
    return concat ["return", t.getD [], ";"]
  | throwStmt argument => do return concat ["throw ", ← print argument, ";"]
  | ifStmt test consequent alternate => do
    let t ← print test
    let c ← print consequent
    let c := if alternate.isSome && consequent.takesElse then braces [c] else c
    let a ← (printOption alternate).mapM fun (_, t) => do return concat [" else ", ← t]
    return concat ["if (", t, ") ", c, a.getD []]
  | forStmt init test step body => do
    let i ← match init with
      | some (varDecl kind declarators) => printVariables kind ((printList declarators).map (·.2))
      | some other => print other
      | none => pure []
    let t ← (printOption test).mapM fun (_, t) => do return concat [" ", ← t]
    let s ← (printOption step).mapM fun (_, t) => do return concat [" ", ← t]
    return concat ["for (", i, ";", t.getD [], ";", s.getD [], ") ", ← print body]
  | forInStmt left right body isOf isAwait => do
    let l ← match left with
      | varDecl kind declarators => printVariables kind ((printList declarators).map (·.2))
      | other => print other
    return concat [if isAwait then "for await (" else "for (", l,
      if isOf then " of " else " in ", ← print right, ") ", ← print body]
  | whileStmt test body => do return concat ["while (", ← print test, ") ", ← print body]
  | doWhileStmt body test => do
    return concat ["do ", ← print body, " while (", ← print test, ");"]
  | breakStmt label => .ok (printJump "break" label)
  | continueStmt label => .ok (printJump "continue" label)
  | labeledStmt label body => do return concat [label, ": ", ← print body]
  | catchClause param body => do
    let p ← (printOption param).mapM fun (_, t) => do return concat ["(", ← t, ") "]
    return concat ["catch ", p.getD [], ← print body]
  | tryStmt body handler finalizer => do
    let b ← print body
    let h ← (printOption handler).mapM fun (_, t) => do return concat [" ", ← t]
    let f ← (printOption finalizer).mapM fun (_, t) => do return concat [" finally ", ← t]
    return concat ["try ", b, h.getD [], f.getD []]
  | switchCase test consequent => do
    let head ← (printOption test).mapM fun (_, t) => do return concat ["case ", ← t, ":"]
    let body ← printAll ((printList consequent).map (·.2))
    return head.getD (ofString "default:") ++ body.flatMap fun t =>
      CodePoint.ofChar '\n' :: t.indent
  | switchStmt discriminant cases => do
    return concat ["switch (", ← print discriminant, ") ",
      braces (← printAll ((printList cases).map (·.2)))]
  | declarator target init => do
    let t ← print target
    let i ← (printOption init).mapM fun (n, t) => do return concat [" = ", ← n.listItem t]
    return t ++ i.getD []
  | varDecl kind declarators => do
    return (← printVariables kind ((printList declarators).map (·.2))) ++ ofString ";"
  | functionDecl name params body isAsync isGenerator =>
    printFunction ((printOption name).map (·.2)) ((printList params).map (·.2))
      (print body) isAsync isGenerator
  | method key value kind isStatic computed =>
    match value with
    | functionExpr _ params body isAsync isGenerator =>
      printMethod (key.printKey (print key) computed) ((printList params).map (·.2))
        (print body) isStatic isAsync isGenerator kind.accessor
    | functionDecl _ params body isAsync isGenerator =>
      printMethod (key.printKey (print key) computed) ((printList params).map (·.2))
        (print body) isStatic isAsync isGenerator kind.accessor
    | _ => .error .notAnExpression
  | classField key value isStatic computed => do
    let k ← key.printKey (print key) computed
    let v ← (printOption value).mapM fun (n, t) => do return concat [" = ", ← n.listItem t]
    return concat [if isStatic then "static " else [], k, v.getD [], ";"]
  | classBody body => do return braces (← printAll ((printList body).map (·.2)))
  | classDecl name superClass body =>
    printClass ((printOption name).map (·.2))
      ((printOption superClass).map fun (n, t) => n.primary t) (print body)
  | importDefault binding => print binding
  | importNamespace binding => do return concat ["* as ", ← print binding]
  | importName imported binding => do
    let i ← print imported
    let same ← match imported with
      | identifier name => do pure ((← binding.definedName) == name)
      | _ => pure false
    if same then return i else return concat [i, " as ", ← print binding]
  | importDecl specifiers source => printImport (printList specifiers) (print source)
  | exportName binding exported => do
    let b ← print binding
    let e ← print exported
    return if b = e then b else concat [b, " as ", e]
  | exportNamed declaration specifiers source => do
    match printOption declaration with
    | some (_, t) => return concat ["export ", ← t]
    | none =>
      let names ← printAll ((printList specifiers).map (·.2))
      let s ← (printOption source).mapM fun (_, t) => do return concat [" from ", ← t]
      return concat ["export ", bracedList names, s.getD [], ";"]
  | exportDefault declaration => do
    if declaration.isDeclaration then return concat ["export default ", ← print declaration]
    else return concat ["export default ", ← declaration.listItem (print declaration), ";"]
  | exportAll source exported => do
    let e ← (printOption exported).mapM fun (_, t) => do return concat ["as ", ← t, " "]
    return concat ["export * ", e.getD [], "from ", ← print source, ";"]

/-- The nodes of a list, each with its text. -/
def printList : List Node → List (Node × Printed)
  | [] => []
  | n :: ns => (n, print n) :: printList ns

/-- A node that may be missing, with its text. -/
def printOption : Option Node → Option (Node × Printed)
  | none => none
  | some n => some (n, print n)

/-- The nodes of a list with holes, each with its text. -/
def printHoles : List (Option Node) → List (Option (Node × Printed))
  | [] => []
  | none :: ns => none :: printHoles ns
  | some n :: ns => some (n, print n) :: printHoles ns

end

end Node

end Resugar
